import RustLua.Proofs.Token.Layout

/-! # Tokens with single blanks between them

A token that is not illegal is read again from its spelling (`Lexeme.Stable`), whatever
stood around it, unless it runs into what stands behind it now. So the spellings of all
tokens with a blank between neighbours are a source of the same tokens. -/
namespace RustLua.Token

variable {source text taken rest rest' : Bytes} {b : UInt8} {l : Lexeme} {ls : List Lexeme}
  {pos : Pos} {tokens : List Token}

/-! ## One lexeme -/

theorem triviaWidth_cons_eq_zero :
    triviaWidth (b :: rest) = 0 ↔
      ¬ Ascii.isLayout b = true ∧
        ¬ (b = Ascii.slash ∧ (rest.headD 0 = Ascii.slash ∨ rest.headD 0 = Ascii.star)) := by
  rw [triviaWidth]
  split
  · rename_i hb
    exact iff_of_false Nat.one_ne_zero fun h => h.1 hb
  rename_i hb
  split
  · rename_i hline
    obtain ⟨rfl, hnext⟩ := hline
    refine iff_of_false ?_ fun h => h.2 ⟨rfl, .inl hnext⟩
    exact Nat.succ_ne_zero _
  rename_i hline
  split
  · rename_i hblock
    obtain ⟨rfl, hnext⟩ := hblock
    obtain ⟨inner, rfl⟩ := eq_cons_of_headD hnext (by decide)
    refine iff_of_false ?_ fun h => h.2 ⟨rfl, .inr hnext⟩
    rw [blockCommentWidth_open]
    omega
  · rename_i hblock
    refine iff_of_true rfl ⟨hb, ?_⟩
    rintro ⟨rfl, hnext | hnext⟩
    · exact hline ⟨rfl, hnext⟩
    · exact hblock ⟨rfl, hnext⟩

/-- A slash that starts a comment with what is behind it. -/
def OpensComment (raw rest : Bytes) : Prop :=
  raw = [Ascii.slash] ∧ (rest.headD 0 = Ascii.slash ∨ rest.headD 0 = Ascii.star)

theorem not_opensComment_of_apart (hr : Apart rest) : ¬ OpensComment taken rest := by
  rintro ⟨_, hnext | hnext⟩
  · exact hr.headD_ne (by decide) (by decide) hnext
  · exact hr.headD_ne (by decide) (by decide) hnext

/-- What starts no comment starts one at most with its neighbour. -/
theorem triviaWidth_append (h : triviaWidth (taken ++ rest) = 0) (hne : taken ≠ [])
    (hr : ¬ OpensComment taken rest') : triviaWidth (taken ++ rest') = 0 := by
  rcases taken with _ | ⟨a, _ | ⟨c, inner⟩⟩
  · exact absurd rfl hne
  · obtain ⟨hlayout, _⟩ := triviaWidth_cons_eq_zero.mp h
    refine triviaWidth_cons_eq_zero.mpr ⟨hlayout, ?_⟩
    rintro ⟨rfl, hnext⟩
    exact hr ⟨rfl, hnext⟩
  · have hstart := triviaWidth_cons_eq_zero.mp h
    exact triviaWidth_cons_eq_zero.mpr hstart

theorem atEnd_append (hne : taken ≠ []) : AtEnd (taken ++ rest) ↔ AtEnd taken := by
  obtain ⟨a, inner, rfl⟩ := List.exists_cons_of_ne_nil hne
  rfl

/-- A lexeme that is read from its own spelling. -/
structure Lexeme.Stable (l : Lexeme) : Prop where
  legal : l.kind ≠ .illegal
  visible : triviaWidth l.raw = 0
  present : ¬ AtEnd l.raw
  scan_raw : scan l.raw = .ok l

theorem stable_of_scan (hstop : triviaWidth text = 0) (hend : ¬ AtEnd text)
    (hl : scan text = .ok l) (hk : l.kind ≠ .illegal) : l.Stable := by
  obtain ⟨hle, hraw, hagain⟩ := lasting_scan text l hl hk
  have hlength := List.length_take_of_le hle
  have hsplit := List.take_append_drop l.width text
  rw [← hraw] at hlength hsplit
  have hne : l.raw ≠ [] := List.ne_nil_of_length_pos (hlength ▸ scan_width_pos hl)
  rw [← hsplit] at hstop hend hl
  refine ⟨hk, ?_, fun h => hend ?_, ?_⟩
  · rw [← List.append_nil l.raw]
    exact triviaWidth_append hstop hne (not_opensComment_of_apart apart_nil)
  · exact (atEnd_append hne).mpr h
  · rw [← List.append_nil l.raw]
    exact hagain [] (not_clings_of_apart hl hlength.symm apart_nil)

namespace Lexeme.Stable

theorem ne_eof (h : l.Stable) : l.kind ≠ .eof := (scanned_of_scan h.scan_raw).ne_eof

theorem nonempty (h : l.Stable) : l.raw ≠ [] := by
  intro hraw
  exact h.present (by simp [AtEnd, hraw])

theorem width_eq (h : l.Stable) : l.width = l.raw.length := by
  obtain ⟨hle, hraw, _⟩ := lasting_scan l.raw l h.scan_raw h.legal
  rw [hraw, List.length_take_of_le hle]

theorem not_clings (h : l.Stable) (hr : Apart rest) : ¬ Clings l.kind l.literal l.raw rest := by
  have hscan : scan (l.raw ++ []) = .ok l := by rw [List.append_nil, h.scan_raw]
  exact not_clings_of_apart hscan h.width_eq hr

theorem not_atEnd (h : l.Stable) (rest : Bytes) : ¬ AtEnd (l.raw ++ rest) :=
  mt (atEnd_append h.nonempty).mp h.present

theorem triviaWidth_eq (h : l.Stable) (hc : ¬ OpensComment l.raw rest) :
    triviaWidth (l.raw ++ rest) = 0 := by
  have hvisible : triviaWidth (l.raw ++ []) = 0 := by rw [List.append_nil, h.visible]
  exact triviaWidth_append hvisible h.nonempty hc

theorem tokensFrom_width (h : l.Stable) (rest : Bytes) (pos : Pos) :
    tokensFrom l.width (l.raw ++ rest) pos = tokensFrom 0 rest (pos.afterAll l.raw) := by
  rw [h.width_eq, tokensFrom_skip (by simp), List.drop_left, List.take_left]

theorem scan_append (h : l.Stable) (hr : ¬ Clings l.kind l.literal l.raw rest) :
    scan (l.raw ++ rest) = .ok l :=
  (lasting_scan l.raw l h.scan_raw h.legal).2.2 rest hr

theorem tokensFrom_append {more : List Token} (h : l.Stable)
    (hr : ¬ Clings l.kind l.literal l.raw rest) (hc : ¬ OpensComment l.raw rest)
    (hmore : tokensFrom 0 rest (pos.afterAll l.raw) = .ok more) :
    tokensFrom 0 (l.raw ++ rest) pos = .ok (l.toToken pos :: more) := by
  rw [tokensFrom_scan (h.triviaWidth_eq hc) (h.not_atEnd rest), h.scan_append hr]
  simp only [h.tokensFrom_width, hmore]

theorem tokensFrom_apart {more : List Token} (h : l.Stable) (hr : Apart rest)
    (hmore : tokensFrom 0 rest (pos.afterAll l.raw) = .ok more) :
    tokensFrom 0 (l.raw ++ rest) pos = .ok (l.toToken pos :: more) :=
  h.tokensFrom_append (h.not_clings hr) (not_opensComment_of_apart hr) hmore

end Lexeme.Stable

/-! ## The stream of lexemes -/

/-- What a token is apart from its position. -/
def reading (t : Token) : Kind × Bytes × Bytes := (t.kind, t.literal, t.raw)

def Lexeme.reading (l : Lexeme) : Kind × Bytes × Bytes := (l.kind, l.literal, l.raw)

/-- The tokens are these lexemes at their positions, and then the end. -/
def ReadAs (tokens : List Token) (ls : List Lexeme) : Prop :=
  tokens.map reading = ls.map Lexeme.reading ++ [(.eof, [], [])]

theorem readAs_end (pos : Pos) : ReadAs [endToken pos] [] := rfl

theorem ReadAs.cons (h : ReadAs tokens ls) (l : Lexeme) (pos : Pos) :
    ReadAs (l.toToken pos :: tokens) (l :: ls) :=
  congrArg (l.reading :: ·) h

/-- Without the end, the tokens are the lexemes. -/
theorem ReadAs.filter_eq (h : ReadAs tokens ls) (hls : ∀ l ∈ ls, l.Stable) :
    (tokens.filter (·.kind ≠ .eof)).map reading = ls.map Lexeme.reading := by
  have hall : ls.filter ((fun r : Kind × Bytes × Bytes => decide (r.1 ≠ .eof)) ∘ Lexeme.reading) =
      ls := List.filter_eq_self.mpr fun l hl => decide_eq_true (hls l hl).ne_eof
  have hend :
      [((.eof, [], []) : Kind × Bytes × Bytes)].filter (fun r => decide (r.1 ≠ .eof)) = [] := rfl
  have hfilter := congrArg (List.filter fun r => decide (r.1 ≠ .eof)) h
  rwa [List.filter_append, List.filter_map, List.filter_map, hall, hend, List.append_nil] at hfilter

theorem ReadAs.raws (h : ReadAs tokens ls) (hls : ∀ l ∈ ls, l.Stable) :
    (tokens.filter (·.kind ≠ .eof)).map (·.raw) = ls.map (·.raw) := by
  have hraws := congrArg (List.map fun r => r.2.2) (h.filter_eq hls)
  rwa [List.map_map, List.map_map] at hraws

/-- A text without an illegal token is read as stable lexemes. It spells its tokens one after
another. -/
theorem exists_spellings (h : tokensFrom 0 text pos = .ok tokens)
    (hlegal : ∀ t ∈ tokens, t.kind ≠ .illegal) :
    ∃ ls : List Lexeme, (∀ l ∈ ls, l.Stable) ∧ ReadAs tokens ls ∧
      (tokens.flatMap (·.raw)).Sublist text := by
  induction hn : text.length using Nat.strongRecOn generalizing text pos tokens with
  | _ n ih =>
    subst hn
    obtain ⟨gap, rest, hgap⟩ := exists_gap text
    rw [hgap.split, hgap.skipped] at h
    rcases tokensFrom_cases hgap.stop h with ⟨hend, rfl⟩ | ⟨hend, l, more, hl, rfl, hmore⟩
    · exact ⟨[], by simp, readAs_end _, List.nil_sublist _⟩
    · obtain ⟨hk, hlegal⟩ := List.forall_mem_cons.mp hlegal
      obtain ⟨hle, hraw, _⟩ := lasting_scan rest l hl hk
      have hpos := scan_width_pos hl
      rw [tokensFrom_skip hle] at hmore
      have hshort : (rest.drop l.width).length < text.length := by
        rw [hgap.split, List.length_append, List.length_drop]
        omega
      obtain ⟨ls, hls, hread, hsub⟩ := ih _ hshort hmore hlegal rfl
      have hfirst := stable_of_scan hgap.stop hend hl hk
      refine ⟨l :: ls, List.forall_mem_cons.mpr ⟨hfirst, hls⟩, hread.cons l _, ?_⟩
      have hsplit : l.raw ++ rest.drop l.width = rest := by rw [hraw, List.take_append_drop]
      have hboth := (List.Sublist.refl l.raw).append hsub
      rw [hsplit] at hboth
      rw [hgap.split]
      exact hboth.trans (List.sublist_append_right gap rest)

theorem exists_stable (h : tokensFrom 0 text pos = .ok tokens)
    (hlegal : ∀ t ∈ tokens, t.kind ≠ .illegal) :
    ∃ ls : List Lexeme, (∀ l ∈ ls, l.Stable) ∧ ReadAs tokens ls := by
  obtain ⟨ls, hls, hread, _⟩ := exists_spellings h hlegal
  exact ⟨ls, hls, hread⟩

/-! ## Spellings with blanks between them -/

/-- Spellings, each behind a blank. -/
def spaced (raws : List Bytes) : Bytes := raws.flatMap (Ascii.blank :: ·)

theorem apart_spaced (raws : List Bytes) : Apart (spaced raws) := by
  cases raws <;> simp [Apart, spaced]

theorem join_cons (raw : Bytes) (raws : List Bytes) :
    Bytes.join [Ascii.blank] (raw :: raws) = raw ++ spaced raws := by
  induction raws generalizing raw with
  | nil => simp [Bytes.join, spaced]
  | cons next raws ih =>
    have hnext := ih next
    simp only [Bytes.join, spaced, List.flatMap_cons, List.cons_append] at hnext ⊢
    rw [← hnext]
    simp [List.intercalate]

theorem tokensFrom_spaced (hls : ∀ l ∈ ls, l.Stable) (pos : Pos) :
    ∃ tokens, tokensFrom 0 (spaced (ls.map (·.raw))) pos = .ok tokens ∧ ReadAs tokens ls := by
  induction ls generalizing pos with
  | nil => exact ⟨_, rfl, readAs_end _⟩
  | cons l ls ih =>
    obtain ⟨hl, hls⟩ := List.forall_mem_cons.mp hls
    obtain ⟨tokens, htokens, hread⟩ := ih hls ((pos.after Ascii.blank).afterAll l.raw)
    refine ⟨_, ?_, hread.cons l (pos.after Ascii.blank)⟩
    have hskip := skipped_blank (b := Ascii.blank) rfl (l.raw ++ spaced (ls.map (·.raw))) pos
    have hfirst := hl.tokensFrom_apart (apart_spaced _) htokens
    exact hskip.trans hfirst

theorem tokensFrom_join (hls : ∀ l ∈ ls, l.Stable) (pos : Pos) :
    ∃ tokens, tokensFrom 0 (Bytes.join [Ascii.blank] (ls.map (·.raw))) pos = .ok tokens ∧
      ReadAs tokens ls := by
  cases ls with
  | nil => exact ⟨_, rfl, readAs_end _⟩
  | cons l ls =>
    obtain ⟨hl, hls⟩ := List.forall_mem_cons.mp hls
    obtain ⟨tokens, htokens, hread⟩ := tokensFrom_spaced hls (pos.afterAll l.raw)
    refine ⟨_, ?_, hread.cons l pos⟩
    rw [List.map_cons, join_cons]
    exact hl.tokensFrom_apart (apart_spaced _) htokens

/-- A token that starts with a hash is one. -/
theorem Lexeme.Stable.eq_hash (h : l.Stable) (hb : l.raw.headD 0 = Ascii.hash) :
    l.raw = [Ascii.hash] := by
  have hspelling : ∀ k ∈ Kind.punctuation, (Bytes.ofString k.name).headD 0 = Ascii.hash →
      Bytes.ofString k.name = [Ascii.hash] := by
    decide
  have hscan := h.scan_raw
  obtain ⟨read, hs, hread⟩ := Start.exists_scan_eq l.raw
  rw [hread] at hscan
  cases hs with
  | string h | byteString h | byte h | apostrophe h => exact absurd (hb.symm.trans h) (by decide)
  | rawString h => exact absurd (hb.symm.trans (Start.headD_of_startsRawString h)) (by decide)
  | word h | number h =>
    rw [hb] at h
    cases h
  | symbol =>
    have hsymbol : symbolLexeme l.raw = l := Except.ok.inj hscan
    obtain ⟨k, hk, heq⟩ := symbolLexeme_legal (by rw [hsymbol]; exact h.legal)
    have hraw : l.raw = Bytes.ofString k.name := by
      rw [← congrArg Lexeme.raw (heq.symm.trans hsymbol)]
    rw [hraw] at hb ⊢
    exact hspelling k (List.mem_of_find?_eq_some hk) hb

theorem interpreterLineWidth_eq_zero (h : text.headD 0 ≠ Ascii.hash) :
    interpreterLineWidth text = 0 := by
  refine if_neg fun hopen => h ?_
  have htwo := eq_of_beq (Bool.and_eq_true_iff.mp hopen).1
  cases text with
  | nil => cases htwo
  | cons b inner => exact (List.cons.inj htwo).1

/-- No two tokens with a blank between them make an interpreter line. -/
theorem interpreterLineWidth_join (hls : ∀ l ∈ ls, l.Stable) :
    interpreterLineWidth (Bytes.join [Ascii.blank] (ls.map (·.raw))) = 0 := by
  refine if_neg ?_
  rw [Bool.and_eq_true, beq_iff_eq]
  rintro ⟨hmark, _⟩
  cases ls with
  | nil => cases hmark
  | cons l ls =>
    have hl := hls l List.mem_cons_self
    obtain ⟨a, inner, hcons⟩ := List.exists_cons_of_ne_nil hl.nonempty
    rw [List.map_cons, join_cons] at hmark
    have hb : l.raw.headD 0 = Ascii.hash := by
      rw [hcons] at hmark ⊢
      exact (List.cons.inj hmark).1
    rw [hl.eq_hash hb] at hmark
    have hnext : (spaced (ls.map (·.raw))).take 1 = [Bytes.ofAscii '!'] :=
      (List.cons.inj hmark).2
    cases ls <;> cases hnext

/-- Layout, comments and neighbours do not count: the spellings of all tokens with single
blanks between them are read as the same tokens, and then comes the end. -/
theorem respaced_tokens_eq (h : tokenize source = .ok tokens)
    (hlegal : ∀ t ∈ tokens, t.kind ≠ .illegal) :
    ∃ again, tokenize (Bytes.join [Ascii.blank]
        ((tokens.filter (·.kind ≠ .eof)).map (·.raw))) = .ok again ∧
      again.map reading =
        (tokens.filter (·.kind ≠ .eof)).map reading ++ [(.eof, [], [])] := by
  rw [tokenize, tokensFrom_skip (interpreterLineWidth_le source)] at h
  obtain ⟨ls, hls, hread⟩ := exists_stable h hlegal
  obtain ⟨again, hagain, hreadAgain⟩ := tokensFrom_join hls Pos.start
  refine ⟨again, ?_, ?_⟩
  · rw [hread.raws hls, tokenize, interpreterLineWidth_join hls]
    exact hagain
  · rw [hread.filter_eq hls]
    exact hreadAgain

theorem respaced_tokens_eq_crowded :
    let source := Bytes.ofString "r#\"q\"#r#'a b'c'1..2.5e+3f32/**/x>>=/y"
    ∃ tokens, tokenize source = .ok tokens ∧ (∀ t ∈ tokens, t.kind ≠ .illegal) ∧
      ∃ again, tokenize (Bytes.join [Ascii.blank]
          ((tokens.filter (·.kind ≠ .eof)).map (·.raw))) = .ok again ∧
        again.map reading =
          (tokens.filter (·.kind ≠ .eof)).map reading ++ [(.eof, [], [])] := by
  intro source
  obtain ⟨tokens, h, hlegal⟩ :
      ∃ tokens, tokenize source = .ok tokens ∧ ∀ t ∈ tokens, t.kind ≠ .illegal :=
    ⟨_, rfl, by decide⟩
  exact ⟨tokens, h, hlegal, respaced_tokens_eq h hlegal⟩

end RustLua.Token
