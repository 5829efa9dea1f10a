import RustLua.Lua.Piece
import RustLua.Parser.Type
import RustLua.Token.Lexer

/-! # What the tokens of a source spell

Each token comes from one scan, and its kind says which: only a letter starts a word,
and only a digit a number. So a token that can be a segment of a path spells a word,
and a keyword spells its name. The end token stands last, and nowhere else. -/
namespace RustLua.Token

open RustLua.Parser (startsSegment)

variable {text : Bytes} {l : Lexeme} {kind : Kind}

/-! ## One lexeme -/

/-- The kinds of lexeme that are neither words, numbers nor punctuation. -/
def quotedKinds : List Kind := [.stringLit, .byteStringLit, .charLit, .lifetime, .illegal]

def wordKinds : List Kind := .ident :: Kind.keywords

def numberKinds : List Kind := [.intLit, .floatLit]

/-- What a scan can give. -/
inductive Scanned (text : Bytes) (l : Lexeme) : Prop
  | quoted (hk : l.kind ∈ quotedKinds)
  | word (hk : l.kind ∈ wordKinds) (hb : Ascii.isLetter (text.headD 0) = true)
      (hl : l = wordLexeme text)
  | number (hk : l.kind ∈ numberKinds) (hb : Ascii.isDigit (text.headD 0) = true)
      (hl : l = numberLexeme text)
  | symbol (hk : l.kind ∈ Kind.punctuation) (hl : l = symbolLexeme text)

theorem ofReading_kind (hk : kind ∈ quotedKinds) (r : Reading) :
    (Lexeme.ofReading kind text r).kind ∈ quotedKinds := by
  cases r with
  | value bytes n => exact hk
  | fault error n => exact (by decide : Kind.illegal ∈ quotedKinds)

theorem apostropheLexeme_kind : (apostropheLexeme text).kind ∈ quotedKinds := by
  unfold apostropheLexeme
  split
  · exact (by decide : Kind.lifetime ∈ quotedKinds)
  · exact ofReading_kind (by decide) _

theorem ofWord_cases (word : Bytes) :
    Kind.ofWord word = .ident ∨
      Kind.ofWord word ∈ Kind.keywords ∧ word = Bytes.ofString (Kind.ofWord word).name := by
  unfold Kind.ofWord
  cases hf : Kind.keywords.find? fun k => word == Bytes.ofString k.name with
  | none => exact .inl rfl
  | some k => exact .inr ⟨List.mem_of_find?_eq_some hf, by simpa using List.find?_some hf⟩

theorem ofWord_mem (word : Bytes) : Kind.ofWord word ∈ wordKinds := by
  rcases ofWord_cases word with hw | ⟨hw, _⟩
  · rw [hw]; exact List.mem_cons_self
  · exact List.mem_cons_of_mem _ hw

theorem number_kind : (number text).1 ∈ numberKinds := by
  unfold number
  split
  · exact (by decide : Kind.intLit ∈ numberKinds)
  · simp only
    split <;> decide

theorem scanned_symbolLexeme : Scanned text (symbolLexeme text) := by
  have hkind : (symbolLexeme text).kind ∈ Kind.punctuation ∨
      (symbolLexeme text).kind ∈ quotedKinds := by
    unfold symbolLexeme
    split
    · rename_i kind hk
      exact .inl (List.mem_of_find?_eq_some hk)
    · exact .inr (by decide : Kind.illegal ∈ quotedKinds)
  exact hkind.elim (.symbol · rfl) .quoted

theorem scanned_of_scan (h : scan text = .ok l) : Scanned text l := by
  unfold scan at h
  simp only at h
  split at h
  · cases h; exact .quoted (ofReading_kind (by decide) _)
  split at h
  · cases h; exact .quoted (ofReading_kind (by decide) _)
  split at h
  · cases h; exact .quoted (ofReading_kind (by decide) _)
  split at h
  · unfold byteLexeme at h
    simp only at h
    split at h
    · cases h
    · cases h; exact .quoted apostropheLexeme_kind
  split at h
  · cases h; exact .quoted apostropheLexeme_kind
  split at h
  · rename_i hb
    cases h
    exact .word (ofWord_mem _) hb rfl
  split at h
  · rename_i hb
    cases h
    exact .number number_kind hb rfl
  · cases h; exact scanned_symbolLexeme

namespace Scanned

theorem kind_mem (h : Scanned text l) :
    l.kind ∈ quotedKinds ++ wordKinds ++ numberKinds ++ Kind.punctuation := by
  simp only [List.mem_append]
  cases h with
  | quoted hk => exact .inl (.inl (.inl hk))
  | word hk => exact .inl (.inl (.inr hk))
  | number hk => exact .inl (.inr hk)
  | symbol hk => exact .inr hk

theorem ne_eof (h : Scanned text l) : l.kind ≠ .eof := by
  intro he
  exact absurd (he ▸ h.kind_mem) (by decide)

/-- Words are scanned as words. -/
theorem eq_wordLexeme (h : Scanned text l) (hw : l.kind ∈ wordKinds) :
    Ascii.isLetter (text.headD 0) = true ∧ l = wordLexeme text := by
  have hother : ∀ k ∈ wordKinds, k ∉ quotedKinds ++ numberKinds ++ Kind.punctuation := by decide
  cases h with
  | word _ hb hl => exact ⟨hb, hl⟩
  | quoted hk | number hk | symbol hk => exact absurd (by simp [hk]) (hother _ hw)

/-- Numbers are scanned as numbers. -/
theorem eq_numberLexeme (h : Scanned text l) (hn : l.kind ∈ numberKinds) :
    Ascii.isDigit (text.headD 0) = true ∧ l = numberLexeme text := by
  have hother : ∀ k ∈ numberKinds, k ∉ quotedKinds ++ wordKinds ++ Kind.punctuation := by decide
  cases h with
  | number _ hb hl => exact ⟨hb, hl⟩
  | quoted hk | word hk | symbol hk => exact absurd (by simp [hk]) (hother _ hn)

/-- Punctuation is scanned as a symbol. -/
theorem eq_symbolLexeme (h : Scanned text l) (hp : l.kind ∈ Kind.punctuation) :
    l = symbolLexeme text := by
  have hother : ∀ k ∈ Kind.punctuation, k ∉ quotedKinds ++ wordKinds ++ numberKinds := by decide
  cases h with
  | symbol _ hl => exact hl
  | quoted hk | word hk | number hk => exact absurd (by simp [hk]) (hother _ hp)

/-- Words, numbers and punctuation stand for themselves. -/
theorem literal_eq_raw (h : Scanned text l) (hk : l.kind ∉ quotedKinds) : l.literal = l.raw := by
  cases h with
  | quoted hq => exact absurd hq hk
  | word _ _ hl | number _ _ hl => rw [hl]; rfl
  | symbol _ hl =>
    rw [hl, symbolLexeme]
    split <;> rfl

end Scanned

/-! ## Spellings -/

theorem isWord_takeWhile (h : Ascii.isLetter (text.headD 0) = true) :
    Lua.isWord (text.takeWhile Ascii.isWord) = true := by
  cases text with
  | nil => cases h
  | cons b rest =>
    replace h : Ascii.isLetter b = true := h
    have hb : Ascii.isWord b = true := by simp [Ascii.isWord, h]
    rw [List.takeWhile_cons_of_pos hb]
    simp only [Lua.isWord, h, Bool.true_and]
    exact List.all_takeWhile

namespace Scanned

/-- A segment is a word. -/
theorem segment (h : Scanned text l) (hs : startsSegment l.kind = true) :
    Lua.isWord l.literal = true := by
  have hwords : ∀ k : Kind, startsSegment k = true → k ∈ wordKinds := by
    intro k hk
    cases k <;> first | decide | cases hk
  obtain ⟨hb, rfl⟩ := h.eq_wordLexeme (hwords _ hs)
  exact isWord_takeWhile hb

/-- A keyword is spelled like its name. -/
theorem keyword (h : Scanned text l) (hk : l.kind ∈ Kind.keywords) :
    l.literal = Bytes.ofString l.kind.name := by
  obtain ⟨_, rfl⟩ := h.eq_wordLexeme (List.mem_cons_of_mem _ hk)
  rcases ofWord_cases (text.takeWhile Ascii.isWord) with hw | ⟨_, hw⟩
  · rw [show (wordLexeme text).kind = .ident from hw] at hk
    exact absurd hk (by decide)
  · exact hw

/-- A number starts with a digit. -/
theorem digit (h : Scanned text l) (hk : l.kind ∈ numberKinds) :
    ∀ b ∈ l.literal.head?, Ascii.isDigit b = true := by
  obtain ⟨hb, rfl⟩ := h.eq_numberLexeme hk
  intro b hm
  replace hm : b ∈ (text.take (Token.number text).2).head? := hm
  rw [List.head?_take] at hm
  split at hm
  · cases hm
  · simpa [List.headD_eq_head?_getD, Option.mem_def.mp hm] using hb

end Scanned

/-! ## All tokens -/

/-- Every token but the last comes from a scan, and the last one is the end token. -/
theorem tokensFrom_eq {skip : Nat} {pos : Pos} {tokens : List Token}
    (h : tokensFrom skip text pos = .ok tokens) :
    ∃ scanned last, tokens = scanned ++ [endToken last] ∧
      ∀ t ∈ scanned, ∃ text l p, Scanned text l ∧ t = l.toToken p := by
  fun_induction tokensFrom skip text pos generalizing tokens with
  | case1 | case4 => cases h; exact ⟨[], _, rfl, by simp⟩
  | case2 _ _ _ _ ih | case3 _ _ _ _ ih => exact ih h
  | case5 | case6 => cases h
  | case7 b rest pos _ _ lexeme hl more hm ih =>
    cases h
    obtain ⟨scanned, last, rfl, hs⟩ := ih hm
    have hfirst : ∃ text l p, Scanned text l ∧ lexeme.toToken pos = l.toToken p :=
      ⟨_, lexeme, pos, scanned_of_scan hl, rfl⟩
    exact ⟨_ :: scanned, last, rfl, List.forall_mem_cons.mpr ⟨hfirst, hs⟩⟩

variable {source : Bytes} {tokens : List Token}

theorem tokenize_mem (h : tokenize source = .ok tokens) {t : Token} (ht : t ∈ tokens)
    (hk : t.kind ≠ .eof) : ∃ text l p, Scanned text l ∧ t = l.toToken p := by
  obtain ⟨scanned, last, rfl, hs⟩ := tokensFrom_eq h
  rcases List.mem_append.mp ht with ht | ht
  · exact hs t ht
  · rw [List.mem_singleton.mp ht] at hk
    exact absurd rfl hk

/-- The end token stands last and nowhere else. -/
theorem tokenize_eof (h : tokenize source = .ok tokens) :
    ∃ scanned last, tokens = scanned ++ [endToken last] ∧ ∀ t ∈ scanned, t.kind ≠ .eof := by
  obtain ⟨scanned, last, rfl, hs⟩ := tokensFrom_eq h
  refine ⟨scanned, last, rfl, fun t ht => ?_⟩
  obtain ⟨_, l, p, hl, rfl⟩ := hs t ht
  exact hl.ne_eof

theorem tokenize_segment (h : tokenize source = .ok tokens) :
    ∀ t ∈ tokens, startsSegment t.kind = true → Lua.isWord t.literal = true := by
  intro t ht hs
  have hk : t.kind ≠ .eof := fun he => by rw [he] at hs; cases hs
  obtain ⟨_, l, p, hl, rfl⟩ := tokenize_mem h ht hk
  exact hl.segment hs

theorem tokenize_keyword (h : tokenize source = .ok tokens) :
    ∀ t ∈ tokens, t.kind ∈ Kind.keywords → t.literal = Bytes.ofString t.kind.name := by
  intro t ht hk
  obtain ⟨_, l, p, hl, rfl⟩ := tokenize_mem h ht fun he => absurd (he ▸ hk) (by decide)
  exact hl.keyword hk

theorem tokenize_digit (h : tokenize source = .ok tokens) :
    ∀ t ∈ tokens, t.kind ∈ numberKinds → ∀ b ∈ t.literal.head?, Ascii.isDigit b = true := by
  intro t ht hk
  obtain ⟨_, l, p, hl, rfl⟩ := tokenize_mem h ht fun he => absurd (he ▸ hk) (by decide)
  exact hl.digit hk

end RustLua.Token
