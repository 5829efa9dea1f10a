import RustLua.Proofs.Token.Numbers
import RustLua.Proofs.Token.Words

/-! # One token

What a scan gives is read off the byte it starts with and, for a few of them, the bytes
behind it (`Start`). A token that is not illegal takes at least one byte and is spelled by
the bytes it takes; and it is read again from its spelling, wherever that does not run into
the text behind it (`lasting_scan`). -/
namespace RustLua.Token

variable {text taken rest rest' : Bytes} {kind : Kind} {l : Lexeme}

/-! ## Spellings that last -/

/-- A raw string or a byte literal starts here, although the first byte is a letter. -/
def Marked (text : Bytes) : Prop :=
  startsRawString text = true ∨
    (text.headD 0 = Bytes.ofAscii 'b' ∧
      (text.getD 1 0 = Ascii.quote ∨ text.getD 1 0 = Ascii.apostrophe))

/-- A token that is spelled `raw` does not end where `rest` starts: a name goes on, a word is
the mark of a literal, a lifetime is a character, a number or an operator is longer. -/
inductive Clings (kind : Kind) (literal raw rest : Bytes) : Prop
  | name (hk : kind ∈ .lifetime :: wordKinds) (hb : Ascii.isWord (rest.headD 0) = true)
  | mark (hk : kind ∈ wordKinds) (hm : Marked (raw ++ rest))
  | character (hk : kind = .lifetime) (hl : literal.length = 1)
      (hb : rest.headD 0 = Ascii.apostrophe)
  | number (hk : kind ∈ numberKinds) (hn : (number (raw ++ rest)).2 ≠ raw.length)
  | operator (hk : kind ∈ Kind.punctuation) {k : Kind} (hm : k ∈ Kind.punctuation)
      (hl : raw.length < (Bytes.ofString k.name).length)
      (hp : Bytes.ofString k.name <+: raw ++ rest)

/-- A token takes what is there and is spelled by it, and it is read again wherever its
spelling does not run on. -/
def Lasting (lex : Bytes → Except Fault Lexeme) : Prop :=
  ∀ text l, lex text = .ok l → l.kind ≠ .illegal →
    l.width ≤ text.length ∧ l.raw = text.take l.width ∧
      ∀ rest, ¬ Clings l.kind l.literal l.raw rest → lex (l.raw ++ rest) = .ok l

theorem Lasting.append {lex : Bytes → Except Fault Lexeme} (h : Lasting lex)
    (hl : lex (taken ++ rest) = .ok l) (hk : l.kind ≠ .illegal) (hwidth : l.width = taken.length)
    (hr : ¬ Clings l.kind l.literal taken rest') : lex (taken ++ rest') = .ok l := by
  obtain ⟨_, hraw, hagain⟩ := h _ l hl hk
  rw [hwidth, List.take_left] at hraw
  rw [← hraw] at hr ⊢
  exact hagain rest' hr

theorem lasting_of_append {lex : Bytes → Except Fault Lexeme}
    (hspan : ∀ text l, lex text = .ok l → l.kind ≠ .illegal →
      l.width ≤ text.length ∧ l.raw = text.take l.width)
    (happend : ∀ taken rest l, lex (taken ++ rest) = .ok l → l.kind ≠ .illegal →
      l.width = taken.length → ∀ rest', ¬ Clings l.kind l.literal taken rest' →
        lex (taken ++ rest') = .ok l) :
    Lasting lex := by
  intro text l hl hk
  obtain ⟨hle, hraw⟩ := hspan text l hl hk
  refine ⟨hle, hraw, fun rest hr => ?_⟩
  rw [hraw] at hr ⊢
  refine happend _ (text.drop l.width) l ?_ hk (List.length_take_of_le hle).symm rest hr
  rw [List.take_append_drop]
  exact hl

/-- The reader of a literal that is written as one kind of token. -/
def literalAt (kind : Kind) (read : Bytes → Reading) (text : Bytes) : Except Fault Lexeme :=
  .ok (Lexeme.ofReading kind text (read text))

theorem lasting_literalAt {read : Bytes → Reading} (h : Settled read) (kind : Kind) :
    Lasting (literalAt kind read) := by
  intro text l hl hk
  unfold literalAt at hl ⊢
  cases hread : read text with
  | fault error n =>
    rw [hread] at hl
    cases hl
    exact absurd rfl hk
  | value bytes n =>
    rw [hread] at hl
    cases hl
    obtain ⟨hle, hagain⟩ := h text bytes n hread
    refine ⟨hle, rfl, fun rest _ => ?_⟩
    simp only [Lexeme.ofReading, hagain rest]
    rw [List.take_append_of_le_length (List.length_take_of_le hle).ge, List.take_take, Nat.min_self]

theorem lasting_numberLexeme : Lasting fun text => .ok (numberLexeme text) := by
  refine lasting_of_append (fun text l hl _ => ?_) fun taken rest l hl _ hwidth rest' hr => ?_
  · cases hl
    exact ⟨number_width_le text, rfl⟩
  · cases hl
    have hsame : (number (taken ++ rest)).2 = taken.length := hwidth
    have hsame' : (number (taken ++ rest')).2 = taken.length :=
      by_contra fun hn => hr (.number number_kind hn)
    have hnumber := (number_append hsame' apart_nil).symm.trans (number_append hsame apart_nil)
    have htake (r : Bytes) : (taken ++ r).take taken.length = taken := List.take_left
    simp only [numberLexeme, hnumber, hsame, htake]

theorem lasting_wordLexeme : Lasting fun text => .ok (wordLexeme text) := by
  refine lasting_of_append (fun text l hl _ => ?_) fun taken rest l hl _ hwidth rest' hr => ?_
  · cases hl
    exact ⟨length_takeWhile_le _ text, (take_length_takeWhile _ text).symm⟩
  · cases hl
    have hword : (taken ++ rest').takeWhile Ascii.isWord = (taken ++ rest).takeWhile Ascii.isWord :=
      takeWhile_append_of_le (Nat.le_of_eq hwidth) (takeWhile_eq_nil fun hb =>
        hr (.name (List.mem_cons_of_mem _ (ofWord_mem _)) hb))
    simp only [wordLexeme, hword]

/-! ### Punctuation -/

/-- No punctuation is empty or has a blank in its spelling. -/
theorem spelling_solid :
    ∀ k ∈ Kind.punctuation, Bytes.ofString k.name ≠ [] ∧
      Ascii.blank ∉ Bytes.ofString k.name := by
  decide

/-- The first match stays the first where only fewer match. -/
theorem find?_of_imp {α : Type} {p q : α → Bool} {l : List α} {a : α} (h : l.find? p = some a)
    (ha : q a = true) (himp : ∀ b ∈ l, q b = true → p b = true) : l.find? q = some a := by
  obtain ⟨_, before, after, rfl, hbefore⟩ := List.find?_eq_some_iff_append.mp h
  refine List.find?_eq_some_iff_append.mpr ⟨ha, before, after, rfl, fun b hb => ?_⟩
  have hno : p b = false := by simpa using hbefore b hb
  cases hq : q b with
  | false => rfl
  | true =>
    rw [himp b (List.mem_append_left _ hb) hq] at hno
    cases hno

theorem punctuationAt?_append {k : Kind} (h : Kind.punctuationAt? (taken ++ rest) = some k)
    (hk : Bytes.ofString k.name = taken) {literal : Bytes} (hr : ¬ Clings k literal taken rest') :
    Kind.punctuationAt? (taken ++ rest') = some k := by
  refine find?_of_imp h ?_ fun other hother hmatch => ?_
  · rw [hk, List.isPrefixOf_iff_prefix]
    exact List.prefix_append taken rest'
  · rw [List.isPrefixOf_iff_prefix] at hmatch ⊢
    have hle : (Bytes.ofString other.name).length ≤ taken.length := Nat.le_of_not_lt fun hlt =>
      hr (.operator (List.mem_of_find?_eq_some h) hother hlt hmatch)
    exact (List.prefix_of_prefix_length_le hmatch (List.prefix_append taken rest') hle).trans
      (List.prefix_append taken rest)

theorem spelling_begins {k : Kind} (h : Kind.punctuationAt? text = some k) :
    Bytes.ofString k.name <+: text := by
  have hmatch := List.find?_some h
  exact List.isPrefixOf_iff_prefix.mp hmatch

/-- Only punctuation gives a symbol that is not illegal. -/
theorem symbolLexeme_legal (h : (symbolLexeme text).kind ≠ .illegal) :
    ∃ k, Kind.punctuationAt? text = some k ∧
      symbolLexeme text = ⟨k, Bytes.ofString k.name, Bytes.ofString k.name,
        (Bytes.ofString k.name).length⟩ := by
  unfold symbolLexeme at h ⊢
  split at h
  · rename_i k hk
    exact ⟨k, hk, rfl⟩
  · exact absurd rfl h

theorem lasting_symbolLexeme : Lasting fun text => .ok (symbolLexeme text) := by
  refine lasting_of_append (fun text l hl hk => ?_) fun taken rest l hl hk hwidth rest' hr => ?_
  · cases hl
    obtain ⟨k, hp, heq⟩ := symbolLexeme_legal hk
    rw [heq]
    exact ⟨(spelling_begins hp).length_le, List.prefix_iff_eq_take.mp (spelling_begins hp)⟩
  · cases hl
    obtain ⟨k, hp, heq⟩ := symbolLexeme_legal hk
    rw [heq] at hwidth hr ⊢
    have hspelling : Bytes.ofString k.name = taken := eq_taken (spelling_begins hp) hwidth
    rw [symbolLexeme, punctuationAt?_append hp hspelling hr]

/-! ### What an apostrophe starts -/

theorem charInner_two_le {body bytes : Bytes} {n : Nat} (h : charInner body = .value bytes n) :
    2 ≤ n := by
  unfold charInner at h
  split at h
  · obtain ⟨_, _, _, _, rfl⟩ := Reading.of_behind_eq_value h
    exact Nat.le_add_right 2 _
  · split at h
    · rename_i c m hc
      obtain ⟨_, _, _, _, hpos, _⟩ := head?_eq_some hc
      split at h
      · cases h
      · cases h
        exact Nat.add_le_add_left hpos 1
    · cases h

theorem charLiteral_three_le {bytes : Bytes} {n : Nat} (h : charLiteral text = .value bytes n) :
    3 ≤ n := by
  rw [charLiteral_eq] at h
  split at h
  · rename_i m hi
    split at h
    · cases h
      exact Nat.succ_le_succ (charInner_two_le hi)
    · cases h
  · cases h

/-- The lifetime that an apostrophe starts. -/
def lifetimeLexeme (text : Bytes) : Lexeme :=
  let name := (text.drop 1).takeWhile Ascii.isWord
  ⟨.lifetime, name, text.take (1 + name.length), 1 + name.length⟩

theorem apostropheLexeme_eq (text : Bytes) :
    apostropheLexeme text =
      if startsLifetime text then lifetimeLexeme text
      else Lexeme.ofReading .charLit text (charLiteral text) := rfl

theorem startsLifetime_append (h : 2 ≤ taken.length)
    (htwo : taken.length = 2 → startsLifetime (taken ++ rest) = true ∧
      rest'.headD 0 ≠ Ascii.apostrophe) :
    startsLifetime (taken ++ rest') = startsLifetime (taken ++ rest) := by
  have hone := getD_append_congr h rest rest'
  by_cases h2 : taken.length = 2
  · obtain ⟨hyes, hopen⟩ := htwo h2
    have hnext : (taken ++ rest').getD 2 0 = rest'.headD 0 := h2 ▸ getD_append_length taken rest'
    rw [hyes, startsLifetime, hnext, bne_iff_ne.mpr hopen, hone]
    exact Bool.and_eq_true_iff.mpr ⟨(Bool.and_eq_true_iff.mp hyes).1, rfl⟩
  · rw [startsLifetime, startsLifetime, hone, getD_append_congr (by omega) rest rest']

/-- A lifetime has a name. -/
theorem lifetimeLexeme_two_le (h : startsLifetime text = true) :
    2 ≤ (lifetimeLexeme text).width := by
  have hletter : Ascii.isLetter (text.getD 1 0) = true := (Bool.and_eq_true_iff.mp h).1
  rcases text with _ | ⟨a, _ | ⟨b, inner⟩⟩
  · cases hletter
  · cases hletter
  · have hb : Ascii.isWord b = true := by
      rw [Ascii.isWord, show Ascii.isLetter b = true from hletter]
      rfl
    simp only [lifetimeLexeme, List.drop_succ_cons, List.drop_zero, List.takeWhile_cons, if_pos hb,
      List.length_cons]
    omega

theorem lifetimeLexeme_width_le (h : startsLifetime text = true) :
    (lifetimeLexeme text).width ≤ text.length := by
  have htwo : 1 < text.length := by
    apply lt_length_of_getD_ne
    intro hzero
    rw [startsLifetime, hzero] at h
    cases h
  have hrun := length_takeWhile_le Ascii.isWord (text.drop 1)
  rw [List.length_drop] at hrun
  simp only [lifetimeLexeme]
  omega

theorem lifetimeLexeme_append (h : (lifetimeLexeme (taken ++ rest)).width = taken.length)
    (hr : ¬ Ascii.isWord (rest'.headD 0) = true) :
    lifetimeLexeme (taken ++ rest') = lifetimeLexeme (taken ++ rest) := by
  have hwidth : 1 + (((taken ++ rest).drop 1).takeWhile Ascii.isWord).length = taken.length := h
  have hone : 1 ≤ taken.length := by omega
  have hdrop (r : Bytes) : (taken ++ r).drop 1 = taken.drop 1 ++ r := drop_append_taken hone r
  have hname : ((taken ++ rest').drop 1).takeWhile Ascii.isWord =
      ((taken ++ rest).drop 1).takeWhile Ascii.isWord := by
    rw [hdrop] at hwidth
    rw [hdrop, hdrop]
    refine takeWhile_append_of_le ?_ (takeWhile_eq_nil hr)
    rw [List.length_drop]
    omega
  simp only [lifetimeLexeme, hname, hwidth, List.take_left]

theorem lasting_charLiteral : Lasting (literalAt .charLit charLiteral) :=
  lasting_literalAt settled_charLiteral _

theorem apostropheLexeme_append (hk : (apostropheLexeme (taken ++ rest)).kind ≠ .illegal)
    (hwidth : (apostropheLexeme (taken ++ rest)).width = taken.length)
    (hr : ¬ Clings (apostropheLexeme (taken ++ rest)).kind
      (apostropheLexeme (taken ++ rest)).literal taken rest') :
    apostropheLexeme (taken ++ rest') = apostropheLexeme (taken ++ rest) := by
  rw [apostropheLexeme_eq] at hk hwidth hr
  rw [apostropheLexeme_eq, apostropheLexeme_eq]
  by_cases hs : startsLifetime (taken ++ rest) = true
  · rw [if_pos hs] at hwidth hr
    have hsame : startsLifetime (taken ++ rest') = startsLifetime (taken ++ rest) := by
      refine startsLifetime_append (hwidth ▸ lifetimeLexeme_two_le hs) fun h2 =>
        ⟨hs, fun hb => hr (.character rfl ?_ hb)⟩
      exact Nat.add_left_cancel (hwidth.trans h2)
    rw [hsame, if_pos hs, if_pos hs,
      lifetimeLexeme_append hwidth fun hb => hr (.name List.mem_cons_self hb)]
  · rw [if_neg hs] at hk hwidth hr
    have hthree : 3 ≤ taken.length := by
      cases hc : charLiteral (taken ++ rest) with
      | value bytes n =>
        rw [hc] at hwidth
        exact hwidth ▸ charLiteral_three_le hc
      | fault error n =>
        rw [hc] at hk
        exact absurd rfl hk
    have hsame : startsLifetime (taken ++ rest') = startsLifetime (taken ++ rest) :=
      startsLifetime_append (Nat.le_of_succ_le hthree) fun h2 => by omega
    have hread : literalAt .charLit charLiteral (taken ++ rest) = .ok _ := rfl
    rw [hsame, if_neg hs, if_neg hs]
    exact Except.ok.inj (lasting_charLiteral.append hread hk hwidth hr)

theorem lasting_apostropheLexeme : Lasting fun text => .ok (apostropheLexeme text) := by
  refine lasting_of_append (fun text l hl hk => ?_) fun taken rest l hl hk hwidth rest' hr => ?_
  · cases hl
    rw [apostropheLexeme_eq] at hk ⊢
    split at hk
    · rename_i hs
      rw [if_pos hs]
      exact ⟨lifetimeLexeme_width_le hs, rfl⟩
    · rename_i hs
      obtain ⟨hle, hraw, _⟩ := lasting_charLiteral text _ rfl hk
      rw [if_neg hs]
      exact ⟨hle, hraw⟩
  · cases hl
    rw [apostropheLexeme_append hk hwidth hr]

/-- Only its kind and its name say how a quoted token runs on. -/
theorem Clings.of_quoted {literal raw raw' : Bytes} (h : Clings kind literal raw rest)
    (hk : kind ∈ quotedKinds) : Clings kind literal raw' rest := by
  have hother : ∀ k ∈ quotedKinds, k ∉ wordKinds ∧ k ∉ numberKinds ∧ k ∉ Kind.punctuation := by
    decide
  obtain ⟨hw, hn, hp⟩ := hother kind hk
  cases h with
  | name hk hb => exact .name hk hb
  | mark hk => exact absurd hk hw
  | character hk hl hb => exact .character hk hl hb
  | number hk => exact absurd hk hn
  | operator hk => exact absurd hk hp

theorem lasting_byteLexeme : Lasting byteLexeme := by
  refine lasting_of_append (fun text l hl hk => ?_) fun taken rest l hl hk hwidth rest' hr => ?_
  · unfold byteLexeme at hl
    simp only at hl
    split at hl
    · cases hl
    · rename_i hle
      cases hl
      exact ⟨Nat.le_of_not_lt hle, rfl⟩
  · unfold byteLexeme at hl ⊢
    simp only at hl
    split at hl
    · cases hl
    · cases hl
      simp only at hk hwidth hr
      have hone : 1 ≤ taken.length := by omega
      have hinner : apostropheLexeme ((taken ++ rest').drop 1) =
          apostropheLexeme ((taken ++ rest).drop 1) := by
        rw [drop_append_taken hone] at hk hwidth hr
        rw [drop_append_taken hone, drop_append_taken hone]
        refine apostropheLexeme_append hk ?_ fun hc => hr (hc.of_quoted apostropheLexeme_kind)
        rw [List.length_drop]
        omega
      simp only [hinner, hwidth, List.take_left]
      exact if_neg (by simp)

/-! ## Every token takes a byte -/

@[simp] theorem ofReading_width (kind : Kind) (text : Bytes) (r : Reading) :
    (Lexeme.ofReading kind text r).width = r.width := by
  cases r <;> rfl

theorem rawHashes_lt_width (text : Bytes) : rawHashes text + 1 < (rawString text).width := by
  rw [rawString_eq]
  split
  · simp only [Reading.width]
    omega
  · simp only [Reading.width]
    omega

theorem charInner_width_pos (body : Bytes) : 0 < (charInner body).width := by
  unfold charInner
  split
  · rw [Reading.width_behind]
    omega
  · split
    · split
      · exact Nat.one_pos
      · exact Nat.add_pos_left Nat.one_pos _
    · exact Nat.one_pos

theorem charLiteral_width_pos (text : Bytes) : 0 < (charLiteral text).width := by
  have hinner := charInner_width_pos (text.drop 1)
  rw [charLiteral_eq]
  split
  · rename_i hi
    rw [hi] at hinner
    split
    · exact Nat.succ_pos _
    · exact hinner
  · rename_i hi
    rw [hi] at hinner
    exact hinner

theorem apostropheLexeme_width_pos (text : Bytes) : 0 < (apostropheLexeme text).width := by
  rw [apostropheLexeme_eq]
  split
  · exact Nat.add_pos_left Nat.one_pos _
  · rw [ofReading_width]
    exact charLiteral_width_pos text

theorem wordLexeme_width_pos (h : Ascii.isLetter (text.headD 0) = true) :
    0 < (wordLexeme text).width := by
  cases text with
  | nil => cases h
  | cons b rest =>
    have hb : Ascii.isWord b = true := by
      rw [Ascii.isWord, show Ascii.isLetter b = true from h]
      rfl
    simp only [wordLexeme, List.takeWhile_cons, if_pos hb, List.length_cons]
    omega

theorem symbolLexeme_width_pos (text : Bytes) : 0 < (symbolLexeme text).width := by
  unfold symbolLexeme
  split
  · rename_i k hk
    have hmem : k ∈ Kind.punctuation := List.mem_of_find?_eq_some hk
    exact List.length_pos_iff.mpr (spelling_solid k hmem).1
  · exact Nat.one_pos

theorem eq_of_byteLexeme (h : byteLexeme text = .ok l) :
    l = ⟨(apostropheLexeme (text.drop 1)).kind, (apostropheLexeme (text.drop 1)).literal,
      text.take (1 + (apostropheLexeme (text.drop 1)).width),
      1 + (apostropheLexeme (text.drop 1)).width⟩ := by
  unfold byteLexeme at h
  simp only at h
  split at h
  · cases h
  · cases h
    rfl

/-! ## Which reader a text is given to -/

def stringAt : Bytes → Except Fault Lexeme :=
  literalAt .stringLit fun text => (quoted (text.drop 1)).behind [] 1

def byteStringAt : Bytes → Except Fault Lexeme :=
  literalAt .byteStringLit fun text => (quoted (text.drop 2)).behind [] 2

/-- What a text is read as, by its first bytes. -/
inductive Start (text : Bytes) : (Bytes → Except Fault Lexeme) → Prop
  | string (h : text.headD 0 = Ascii.quote) : Start text stringAt
  | rawString (h : startsRawString text = true) : Start text (literalAt .stringLit rawString)
  | byteString (h : text.headD 0 = Bytes.ofAscii 'b') (hnext : text.getD 1 0 = Ascii.quote) :
      Start text byteStringAt
  | byte (h : text.headD 0 = Bytes.ofAscii 'b') (hnext : text.getD 1 0 = Ascii.apostrophe) :
      Start text byteLexeme
  | apostrophe (h : text.headD 0 = Ascii.apostrophe) :
      Start text fun text => .ok (apostropheLexeme text)
  | word (h : Ascii.isLetter (text.headD 0) = true) (hm : ¬ Marked text) :
      Start text fun text => .ok (wordLexeme text)
  | number (h : Ascii.isDigit (text.headD 0) = true) :
      Start text fun text => .ok (numberLexeme text)
  | symbol (hletter : Ascii.isLetter (text.headD 0) = false)
      (hdigit : Ascii.isDigit (text.headD 0) = false) (hquote : text.headD 0 ≠ Ascii.quote)
      (hapostrophe : text.headD 0 ≠ Ascii.apostrophe) :
      Start text fun text => .ok (symbolLexeme text)

namespace Start

variable {read : Bytes → Except Fault Lexeme}

theorem exists_scan_eq (text : Bytes) : ∃ read, Start text read ∧ scan text = read text := by
  unfold scan
  simp only
  split
  · rename_i h
    exact ⟨_, .string h, rfl⟩
  rename_i hquote
  split
  · rename_i h
    exact ⟨_, .rawString h, rfl⟩
  rename_i hraw
  split
  · rename_i h
    exact ⟨_, .byteString h.1 h.2, rfl⟩
  rename_i hbyteString
  split
  · rename_i h
    exact ⟨_, .byte h.1 h.2, rfl⟩
  rename_i hbyte
  split
  · rename_i h
    exact ⟨_, .apostrophe h, rfl⟩
  rename_i hapostrophe
  split
  · rename_i h
    refine ⟨_, .word h ?_, rfl⟩
    rintro (hr | ⟨hb, hn | hn⟩)
    · exact hraw hr
    · exact hbyteString ⟨hb, hn⟩
    · exact hbyte ⟨hb, hn⟩
  rename_i hletter
  split
  · rename_i h
    exact ⟨_, .number h, rfl⟩
  · rename_i hdigit
    exact ⟨_, .symbol (Bool.eq_false_iff.mpr hletter) (Bool.eq_false_iff.mpr hdigit) hquote
      hapostrophe, rfl⟩

theorem headD_of_startsRawString (h : startsRawString text = true) :
    text.headD 0 = Bytes.ofAscii 'r' :=
  eq_of_beq (Bool.and_eq_true_iff.mp h).1

theorem not_isLetter_of_isDigit {b : UInt8} (h : Ascii.isDigit b = true) :
    Ascii.isLetter b = false := by
  simp only [Ascii.isDigit, Ascii.isLetter, Ascii.underscore, Bool.and_eq_true, decide_eq_true_eq,
    UInt8.le_iff_toNat_le, Bool.or_eq_false_iff, Bool.and_eq_false_iff, decide_eq_false_iff_not,
    beq_eq_false_iff_ne, ne_eq, ← UInt8.toNat_inj] at h ⊢
  change 48 ≤ _ ∧ _ ≤ 57 at h
  change ((¬ 97 ≤ _ ∨ ¬ _ ≤ 122) ∧ (¬ 65 ≤ _ ∨ ¬ _ ≤ 90)) ∧ ¬ _ = 95
  omega

/-- The reader is determined. -/
theorem scan_eq (h : Start text read) : scan text = read text := by
  -- each class of first bytes leaves out the bytes of the branches before it
  have hne {b : UInt8} {q : UInt8 → Bool} {v : Bool} (hq : q (text.headD 0) = v)
      (hb : q b ≠ v) : text.headD 0 ≠ b := fun he => hb (he ▸ hq)
  have hnotraw (hr : text.headD 0 ≠ Bytes.ofAscii 'r') : ¬ startsRawString text = true :=
    fun h => hr (headD_of_startsRawString h)
  unfold scan
  simp only
  cases h with
  | string h => rw [if_pos h]; rfl
  | rawString h =>
    rw [if_neg (by rw [headD_of_startsRawString h]; decide), if_pos h]
    rfl
  | byteString h hnext =>
    rw [if_neg (by rw [h]; decide), if_neg (hnotraw (by rw [h]; decide)), if_pos ⟨h, hnext⟩]
    rfl
  | byte h hnext =>
    rw [if_neg (by rw [h]; decide), if_neg (hnotraw (by rw [h]; decide)),
      if_neg fun hb => absurd (hnext.symm.trans hb.2) (by decide), if_pos ⟨h, hnext⟩]
  | apostrophe h =>
    have hb : text.headD 0 ≠ Bytes.ofAscii 'b' := by rw [h]; decide
    rw [if_neg (by rw [h]; decide), if_neg (hnotraw (by rw [h]; decide)), if_neg fun h => hb h.1,
      if_neg fun h => hb h.1, if_pos h]
  | word h hm =>
    rw [if_neg (hne h (by decide)), if_neg fun hr => hm (.inl hr),
      if_neg fun hb => hm (.inr ⟨hb.1, .inl hb.2⟩), if_neg fun hb => hm (.inr ⟨hb.1, .inr hb.2⟩),
      if_neg (hne h (by decide)), if_pos h]
  | number h =>
    have hb : text.headD 0 ≠ Bytes.ofAscii 'b' := hne h (by decide)
    rw [if_neg (hne h (by decide)), if_neg (hnotraw (hne h (by decide))), if_neg fun h => hb h.1,
      if_neg fun h => hb h.1, if_neg (hne h (by decide)),
      if_neg (Bool.eq_false_iff.mp (not_isLetter_of_isDigit h)), if_pos h]
  | symbol hletter hdigit hquote hapostrophe =>
    have hb : text.headD 0 ≠ Bytes.ofAscii 'b' := hne hletter (by decide)
    rw [if_neg hquote, if_neg (hnotraw (hne hletter (by decide))), if_neg fun h => hb h.1,
      if_neg fun h => hb h.1, if_neg hapostrophe, if_neg (Bool.eq_false_iff.mp hletter),
      if_neg (Bool.eq_false_iff.mp hdigit)]

theorem lasting (h : Start text read) : Lasting read := by
  cases h with
  | string => exact lasting_literalAt (settled_quoted 1) _
  | rawString => exact lasting_literalAt settled_rawString _
  | byteString => exact lasting_literalAt (settled_quoted 2) _
  | byte => exact lasting_byteLexeme
  | apostrophe => exact lasting_apostropheLexeme
  | word => exact lasting_wordLexeme
  | number => exact lasting_numberLexeme
  | symbol => exact lasting_symbolLexeme

/-- Every token takes a byte, also an illegal one. -/
theorem width_pos (h : Start text read) (hl : read text = .ok l) : 0 < l.width := by
  cases h with
  | string =>
    cases hl
    rw [ofReading_width, Reading.width_behind]
    exact Nat.add_pos_left Nat.one_pos _
  | rawString =>
    cases hl
    rw [ofReading_width]
    exact Nat.zero_lt_of_lt (rawHashes_lt_width text)
  | byteString =>
    cases hl
    rw [ofReading_width, Reading.width_behind]
    exact Nat.add_pos_left Nat.two_pos _
  | byte =>
    rw [eq_of_byteLexeme hl]
    exact Nat.add_pos_left Nat.one_pos _
  | apostrophe =>
    cases hl
    exact apostropheLexeme_width_pos text
  | word h =>
    cases hl
    exact wordLexeme_width_pos h
  | number h =>
    cases hl
    exact number_width_pos h
  | symbol =>
    cases hl
    exact symbolLexeme_width_pos text

theorem startsRawString_eq (text : Bytes) :
    startsRawString text = (text.headD 0 == Bytes.ofAscii 'r' &&
      text.getD (rawHashes text + 1) 0 == Ascii.quote) := by
  rw [startsRawString, ← drop_length_takeWhile, ← rawHashes, List.drop_drop,
    headD_eq_getD (List.drop _ _), List.getD_eq_getElem?_getD, List.getElem?_drop, Nat.add_zero,
    Nat.add_comm 1, ← List.getD_eq_getElem?_getD]

theorem startsRawString_append (h : startsRawString (taken ++ rest) = true)
    (hlength : rawHashes (taken ++ rest) + 1 < taken.length) (rest' : Bytes) :
    startsRawString (taken ++ rest') = true := by
  obtain ⟨b, inner, rfl⟩ := List.exists_cons_of_length_pos (Nat.zero_lt_of_lt hlength)
  have hhashes : rawHashes (b :: inner ++ rest') = rawHashes (b :: inner ++ rest) :=
    congrArg List.length
      (@takeWhile_append_of_lt inner rest _ (Nat.lt_of_succ_lt_succ hlength) rest')
  rw [startsRawString_eq] at h ⊢
  rw [hhashes, getD_append_congr hlength rest rest']
  exact h

/-- A raw string has a hash or a quote behind its first byte. -/
theorem getD_one_of_startsRawString (h : startsRawString text = true) :
    text.getD 1 0 = Ascii.hash ∨ text.getD 1 0 = Ascii.quote := by
  have hquote := (Bool.and_eq_true_iff.mp h).2
  rcases text with _ | ⟨a, _ | ⟨b, inner⟩⟩
  · cases hquote
  · cases hquote
  · by_cases hb : b = Ascii.hash
    · exact .inl hb
    · simp only [List.drop_succ_cons, List.drop_zero, List.dropWhile_cons, beq_iff_eq, hb] at hquote
      exact .inr hquote

/-- What a text is read as is decided inside the token. -/
theorem append (h : Start (taken ++ rest) read) (hl : read (taken ++ rest) = .ok l)
    (hwidth : l.width = taken.length) (hr : ¬ Clings l.kind l.literal taken rest') :
    Start (taken ++ rest') read := by
  have hpos : 0 < taken.length := hwidth ▸ h.width_pos hl
  have hhead : (taken ++ rest').headD 0 = (taken ++ rest).headD 0 := by
    rw [headD_eq_getD, headD_eq_getD]
    exact getD_append_congr hpos rest rest'
  cases h with
  | string h => exact .string (hhead.trans h)
  | rawString h =>
    cases hl
    rw [ofReading_width] at hwidth
    exact .rawString (startsRawString_append h (hwidth ▸ rawHashes_lt_width _) rest')
  | byteString h hnext =>
    cases hl
    rw [ofReading_width, Reading.width_behind] at hwidth
    have htwo : 1 < taken.length := by omega
    exact .byteString (hhead.trans h) ((getD_append_congr htwo rest rest').trans hnext)
  | byte h hnext =>
    have hinner := apostropheLexeme_width_pos ((taken ++ rest).drop 1)
    rw [eq_of_byteLexeme hl] at hwidth
    change 1 + _ = _ at hwidth
    have htwo : 1 < taken.length := by omega
    exact .byte (hhead.trans h) ((getD_append_congr htwo rest rest').trans hnext)
  | apostrophe h => exact .apostrophe (hhead.trans h)
  | word h hm =>
    cases hl
    exact .word (hhead ▸ h) fun hm => hr (.mark (ofWord_mem _) hm)
  | number h => exact .number (hhead ▸ h)
  | symbol hletter hdigit hquote hapostrophe =>
    rw [← hhead] at hletter hdigit hquote hapostrophe
    exact .symbol hletter hdigit hquote hapostrophe

end Start

/-! ## One scan -/

theorem scan_width_pos (h : scan text = .ok l) : 0 < l.width := by
  obtain ⟨read, hs, hread⟩ := Start.exists_scan_eq text
  exact hs.width_pos (hread ▸ h)

/-- A token that is not illegal is the bytes it takes, and these alone decide it. -/
theorem lasting_scan : Lasting scan := by
  refine lasting_of_append (fun text l hl hk => ?_) fun taken rest l hl hk hwidth rest' hr => ?_
  · obtain ⟨read, hs, hread⟩ := Start.exists_scan_eq text
    rw [hread] at hl
    obtain ⟨hle, hraw, _⟩ := hs.lasting text l hl hk
    exact ⟨hle, hraw⟩
  · obtain ⟨read, hs, hread⟩ := Start.exists_scan_eq (taken ++ rest)
    rw [hread] at hl
    rw [(hs.append hl hwidth hr).scan_eq]
    exact hs.lasting.append hl hk hwidth hr

/-- A spelling without a blank does not reach into what stands apart. -/
theorem isPrefix_of_apart {needle : Bytes} (hblank : Ascii.blank ∉ needle) (hr : Apart rest)
    (h : needle <+: taken ++ rest) : needle <+: taken := by
  rcases List.prefix_or_prefix_of_prefix h (List.prefix_append taken rest) with hle | ⟨more, rfl⟩
  · exact hle
  · cases more with
    | nil => exact ⟨[], by rw [List.append_nil, List.append_nil]⟩
    | cons b more =>
      obtain ⟨_, rfl⟩ := (List.prefix_append_right_inj taken).mp h
      exact absurd (hr b rfl ▸ List.mem_append_right taken List.mem_cons_self) hblank

/-- Behind the first byte of a word stands another byte of it, or nothing of it. -/
theorem getD_one_of_word (h : (wordLexeme (taken ++ rest)).width = taken.length) (hpos : taken ≠ [])
    (hr : Apart rest') {b : UInt8} (hword : Ascii.isWord b = false) (h0 : b ≠ 0)
    (hblank : b ≠ Ascii.blank) : (taken ++ rest').getD 1 0 ≠ b := by
  rcases taken with _ | ⟨a, _ | ⟨c, inner⟩⟩
  · exact absurd rfl hpos
  · rw [getD_one_singleton]
    exact hr.headD_ne h0 hblank
  · have hall : (a :: c :: inner ++ rest).takeWhile Ascii.isWord = a :: c :: inner :=
      eq_taken (List.takeWhile_prefix _) h
    have hc : Ascii.isWord c = true :=
      List.mem_takeWhile_imp (hall.symm ▸ List.mem_cons_of_mem a List.mem_cons_self)
    rintro rfl
    exact absurd (hword.symm.trans hc) (by decide)

/-- Nothing runs into what stands apart. -/
theorem not_clings_of_apart (h : scan (taken ++ rest) = .ok l) (hwidth : l.width = taken.length)
    (hr : Apart rest') : ¬ Clings l.kind l.literal taken rest' := by
  intro hc
  cases hc with
  | name _ hb => exact Bool.false_ne_true ((hr.headD_class (by decide) (by decide)).symm.trans hb)
  | mark hk hm =>
    obtain ⟨_, rfl⟩ := (scanned_of_scan h).eq_wordLexeme hk
    have hne : taken ≠ [] := List.ne_nil_of_length_pos (hwidth ▸ scan_width_pos h)
    have hnext {b : UInt8} := getD_one_of_word (b := b) hwidth hne hr
    rcases hm with hraw | ⟨_, hq | hq⟩
    · rcases Start.getD_one_of_startsRawString hraw with hq | hq
      · exact hnext (by decide) (by decide) (by decide) hq
      · exact hnext (by decide) (by decide) (by decide) hq
    · exact hnext (by decide) (by decide) (by decide) hq
    · exact hnext (by decide) (by decide) (by decide) hq
  | character _ _ hb => exact hr.headD_ne (by decide) (by decide) hb
  | number hk hn =>
    obtain ⟨_, rfl⟩ := (scanned_of_scan h).eq_numberLexeme hk
    exact hn (number_append hwidth hr ▸ hwidth)
  | operator _ hm hl hp =>
    exact Nat.not_le.mpr hl (isPrefix_of_apart (spelling_solid _ hm).2 hr hp).length_le

/-- Only an escape that the end cuts off makes a byte literal wider than its text. -/
theorem byteLexeme_eq_error {fault : Fault} {body : Bytes}
    (h : byteLexeme (Bytes.ofAscii 'b' :: Ascii.apostrophe :: body) = .error fault) :
    body = [Ascii.backslash] := by
  by_contra hbody
  have hwidth : (apostropheLexeme (Ascii.apostrophe :: body)).width ≤
      (Ascii.apostrophe :: body).length := by
    rw [apostropheLexeme_eq]
    split
    · rename_i hs
      exact lifetimeLexeme_width_le hs
    · rw [ofReading_width]
      exact charLiteral_width_le hbody
  unfold byteLexeme at h
  simp only [List.drop_succ_cons, List.drop_zero] at h
  split at h
  · rename_i hlt
    simp only [List.length_cons] at hlt hwidth
    omega
  · cases h

theorem scan_eq_error_iff :
    scan text = .error .cutByteLiteral ↔ text = Bytes.ofString "b'\\" := by
  constructor
  · intro h
    obtain ⟨read, hs, hread⟩ := Start.exists_scan_eq text
    rw [hread] at h
    cases hs with
    | byte hb hnext =>
      obtain ⟨rest, rfl⟩ := eq_cons_of_headD hb (by decide)
      rw [List.getD_cons_succ, ← headD_eq_getD] at hnext
      obtain ⟨body, rfl⟩ := eq_cons_of_headD hnext (by decide)
      rw [byteLexeme_eq_error h]
      rfl
    | string | rawString | byteString | apostrophe | word | number | symbol => cases h
  · rintro rfl
    rfl

end RustLua.Token
