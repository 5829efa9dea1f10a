import RustLua.Proofs.Parser.PlacedFiles
import RustLua.Proofs.Parser.Speculation
import RustLua.Proofs.Token.Relexing

/-! # Texts of tokens

Types and paths are kept as text: the spellings of their tokens, with a blank between two words
and nowhere else. The text is read as the same tokens exactly if no comment comes about in it and
no token clings to what is written behind it (`relexed_iff_loose`). Some do: the lone underscore
is no word here, and closing angles that stood apart are a shift. -/
namespace RustLua.Token

variable {text rest : Bytes} {l l' : Lexeme}

/-! ## What a text is read as -/

theorem not_isWord_of_takeWhile {name : Bytes}
    (h : (name ++ rest).takeWhile Ascii.isWord = name) : ¬ Ascii.isWord (rest.headD 0) = true := by
  intro hb
  have hall : ∀ b ∈ name, Ascii.isWord b = true := fun b hm =>
    List.mem_takeWhile_imp (h.symm ▸ hm)
  rw [List.takeWhile_append_of_pos hall] at h
  cases rest with
  | nil => cases hb
  | cons b rest =>
    rw [List.takeWhile_cons_of_pos (show Ascii.isWord b = true from hb)] at h
    exact List.cons_ne_nil _ _ (List.append_right_eq_self.mp h)

theorem quoted_of_marked (h : Marked text) (hl : scan text = .ok l) : l.kind ∈ quotedKinds := by
  rcases h with h | ⟨hb, hq | hq⟩
  · rw [(Start.rawString h).scan_eq] at hl
    cases hl
    exact ofReading_kind (by decide) _
  · rw [(Start.byteString hb hq).scan_eq] at hl
    cases hl
    exact ofReading_kind (by decide) _
  · rw [(Start.byte hb hq).scan_eq] at hl
    rw [eq_of_byteLexeme hl]
    exact apostropheLexeme_kind

/-- The first match is the longest. -/
theorem punctuationAt?_longest {k other : Kind} (h : Kind.punctuationAt? text = some k)
    (hm : other ∈ Kind.punctuation) (hp : Bytes.ofString other.name <+: text) :
    (Bytes.ofString other.name).length ≤ (Bytes.ofString k.name).length := by
  have hsorted : Kind.punctuation.Pairwise fun a b =>
      (Bytes.ofString b.name).length ≤ (Bytes.ofString a.name).length := by decide
  obtain ⟨_, before, after, hsplit, hbefore⟩ := List.find?_eq_some_iff_append.mp h
  rw [hsplit] at hm hsorted
  rcases List.mem_append.mp hm with hm | hm
  · have hno := hbefore other hm
    rw [List.isPrefixOf_iff_prefix.mpr hp] at hno
    cases hno
  · rcases List.mem_cons.mp hm with rfl | hm
    · exact Nat.le_refl _
    · exact List.rel_of_pairwise_cons (List.pairwise_append.mp hsorted).2.1 hm

/-! ## Lifetimes -/

/-- Where the apostrophe of a lifetime stands. -/
def lifetimeStart (text : Bytes) : Nat := if text.headD 0 = Ascii.apostrophe then 0 else 1

theorem eq_lifetime_of_ofReading {kind : Kind} {r : Reading}
    (hk : (Lexeme.ofReading kind text r).kind = .lifetime) : kind = .lifetime := by
  cases r with
  | value => exact hk
  | fault => cases hk

theorem lifetime_of_apostrophe (hk : (apostropheLexeme text).kind = .lifetime) :
    startsLifetime text = true ∧ apostropheLexeme text = lifetimeLexeme text := by
  rw [apostropheLexeme_eq] at hk ⊢
  split at hk
  · rename_i hs
    exact ⟨hs, if_pos hs⟩
  · exact absurd (eq_lifetime_of_ofReading hk) (by decide)

theorem lifetime_of_scan (h : scan text = .ok l) (hk : l.kind = .lifetime) :
    startsLifetime (text.drop (lifetimeStart text)) = true ∧
      l.literal = (text.drop (lifetimeStart text + 1)).takeWhile Ascii.isWord ∧
      l.width = lifetimeStart text + (1 + l.literal.length) := by
  obtain ⟨read, hs, hread⟩ := Start.exists_scan_eq text
  rw [hread] at h
  cases hs with
  | string | rawString | byteString =>
    cases h
    exact absurd (eq_lifetime_of_ofReading hk) (by decide)
  | byte hb =>
    rw [eq_of_byteLexeme h] at hk ⊢
    obtain ⟨hs, heq⟩ := lifetime_of_apostrophe hk
    rw [lifetimeStart, if_neg (by rw [hb]; decide), heq]
    exact ⟨hs, by rw [← List.drop_drop]; rfl, rfl⟩
  | apostrophe hb =>
    cases h
    obtain ⟨hs, heq⟩ := lifetime_of_apostrophe hk
    rw [lifetimeStart, if_pos hb, heq]
    exact ⟨hs, rfl, (Nat.zero_add _).symm⟩
  | word =>
    cases h
    have hmem : (wordLexeme text).kind ∈ wordKinds := ofWord_mem _
    exact absurd (hk ▸ hmem) (by decide)
  | number =>
    cases h
    have hmem : (numberLexeme text).kind ∈ numberKinds := number_kind
    exact absurd (hk ▸ hmem) (by decide)
  | symbol =>
    cases h
    have hlegal : (symbolLexeme text).kind ≠ .illegal := by
      rw [hk]
      decide
    obtain ⟨k, hp, heq⟩ := symbolLexeme_legal hlegal
    rw [heq] at hk
    cases hk
    exact absurd (List.mem_of_find?_eq_some hp) (by decide)

/-! ## The same token again -/

namespace Lexeme.Stable

/-- A lifetime that is read again ends where it ended, and is no character. -/
theorem lifetime_again (h : l.Stable) (hl : scan (l.raw ++ rest) = .ok l')
    (hkind : l'.kind = l.kind) (hliteral : l'.literal = l.literal) (hk : l.kind = .lifetime) :
    startsLifetime ((l.raw ++ rest).drop (lifetimeStart l.raw)) = true ∧
      (l.literal ++ rest).takeWhile Ascii.isWord = l.literal ∧
      l.raw.length = lifetimeStart l.raw + (1 + l.literal.length) := by
  obtain ⟨_, hname, hwidth⟩ := lifetime_of_scan h.scan_raw hk
  obtain ⟨hstart, hname', _⟩ := lifetime_of_scan hl (hkind.trans hk)
  have hsame : lifetimeStart (l.raw ++ rest) = lifetimeStart l.raw := by
    obtain ⟨a, inner, hcons⟩ := List.exists_cons_of_ne_nil h.nonempty
    rw [hcons]
    rfl
  rw [h.width_eq] at hwidth
  have hlength : (l.raw.drop (lifetimeStart l.raw + 1)).length = l.literal.length := by
    rw [List.length_drop]
    omega
  have hdrop : l.literal = l.raw.drop (lifetimeStart l.raw + 1) :=
    hname ▸ (List.takeWhile_prefix _).eq_of_length (hname ▸ hlength.symm)
  rw [hsame] at hstart hname'
  rw [drop_append_taken (by omega), ← hdrop, hliteral] at hname'
  exact ⟨hstart, hname'.symm, hwidth⟩

/-- What is read as the same kind and literal has not run on. -/
theorem not_clings_of_scan (h : l.Stable) (hl : scan (l.raw ++ rest) = .ok l')
    (hkind : l'.kind = l.kind) (hliteral : l'.literal = l.literal) :
    ¬ Clings l.kind l.literal l.raw rest := by
  have hs := scanned_of_scan hl
  have hother : ∀ k ∈ wordKinds ++ numberKinds ++ Kind.punctuation, k ∉ quotedKinds := by decide
  -- what stands for itself is as long as it was
  have hself (hk : l.kind ∉ quotedKinds) : l'.raw = l.raw := by
    rw [← hs.literal_eq_raw (hkind ▸ hk), hliteral,
      (scanned_of_scan h.scan_raw).literal_eq_raw hk]
  intro hc
  cases hc with
  | name hk hb =>
    rcases List.mem_cons.mp hk with hk | hk
    · exact not_isWord_of_takeWhile (h.lifetime_again hl hkind hliteral hk).2.1 hb
    · obtain ⟨_, heq⟩ := hs.eq_wordLexeme (hkind ▸ hk)
      have hword : (l.raw ++ rest).takeWhile Ascii.isWord = l.raw :=
        (congrArg Lexeme.raw heq).symm.trans (hself (hother _ (by simp [hk])))
      exact not_isWord_of_takeWhile hword hb
  | mark hk hm => exact hother _ (by simp [hk]) (hkind ▸ quoted_of_marked hm hl)
  | character hk hone hb =>
    obtain ⟨hstart, _, hlength⟩ := h.lifetime_again hl hkind hliteral hk
    have hnext := (Bool.and_eq_true_iff.mp hstart).2
    rw [hone] at hlength
    rw [List.getD_eq_getElem?_getD, List.getElem?_drop, ← hlength, ← List.getD_eq_getElem?_getD,
      getD_append_length, hb] at hnext
    exact absurd hnext (by decide)
  | number hk hn =>
    obtain ⟨_, heq⟩ := hs.eq_numberLexeme (hkind ▸ hk)
    have hraw : (l.raw ++ rest).take (Token.number (l.raw ++ rest)).2 = l.raw :=
      (congrArg Lexeme.raw heq).symm.trans (hself (hother _ (by simp [hk])))
    refine hn ?_
    rw [← congrArg List.length hraw, List.length_take_of_le (number_width_le _)]
  | operator hk hm hlong hp =>
    have hne : l.kind ∉ quotedKinds := hother _ (by simp [hk])
    have heq := hs.eq_symbolLexeme (hkind ▸ hk)
    obtain ⟨k, hfound, hsymbol⟩ := symbolLexeme_legal (heq ▸ hkind ▸ h.legal)
    have hraw : Bytes.ofString k.name = l.raw :=
      (congrArg Lexeme.raw (heq.trans hsymbol)).symm.trans (hself hne)
    exact Nat.not_le.mpr hlong (hraw ▸ punctuationAt?_longest hfound hm hp)

end Lexeme.Stable

end RustLua.Token

namespace RustLua.Parser

open RustLua.Tree

variable {source text : Bytes} {tokens run again : List Token} {t : Token} {l : Token.Lexeme}
  {c : UInt8} {pos : Pos}

/-! ## Texts -/

/-- A token as it is compared. -/
def shown (t : Token) : Token.Kind × Bytes := (t.kind, t.literal)

/-- The same tokens, the end token apart, and then comes the end. -/
def Matches (run again : List Token) : Prop :=
  again.map shown = (run.filter (·.kind ≠ .eof)).map shown ++ [(.eof, [])]

instance (run again : List Token) : Decidable (Matches run again) :=
  inferInstanceAs (Decidable (_ = _))

/-- A text is read as these tokens. -/
def ReadsAs (text : Bytes) (run : List Token) : Prop :=
  ∃ again, Token.tokenize text = .ok again ∧ Matches run again

/-- What is true of every token of a run and of the text behind it. -/
def Throughout (P : Token → Bytes → Prop) (run : List Token) : Prop :=
  ∀ t after, t :: after <:+ run → P t (tokenText (isWord t.kind) after)

/-- No token runs into what is written behind it. -/
def Loose : List Token → Prop :=
  Throughout fun t rest => ¬ Token.Clings t.kind t.literal t.raw rest

/-- No comment comes about. -/
def Uncommented : List Token → Prop := Throughout fun t rest => ¬ Token.OpensComment t.raw rest

/-- No comment and no interpreter line comes about. -/
structure Plain (run : List Token) : Prop where
  slash : Uncommented run
  hash : Token.interpreterLineWidth (tokenText false run) = 0

theorem throughout_cons {P : Token → Bytes → Prop} :
    Throughout P (t :: run) ↔ P t (tokenText (isWord t.kind) run) ∧ Throughout P run := by
  constructor
  · exact fun h => ⟨h t run (List.suffix_refl _), fun u after hs =>
      h u after (hs.trans (List.suffix_cons t run))⟩
  · rintro ⟨ht, hrun⟩ u after hs
    rcases List.suffix_cons_iff.mp hs with heq | hs
    · cases heq
      exact ht
    · exact hrun u after hs

/-- The end token, or a token that is read from its own spelling. -/
def Rereadable (t : Token) : Prop :=
  (∃ pos, t = Token.endToken pos) ∨ ∃ (l : Token.Lexeme) (pos : _), l.Stable ∧ t = l.toToken pos

theorem rereadable_of_tokensFrom (h : Token.tokensFrom 0 text pos = .ok tokens)
    (hlegal : ∀ t ∈ tokens, t.kind ≠ .illegal) : ∀ t ∈ tokens, Rereadable t := by
  obtain ⟨ls, hls, hread⟩ := Token.exists_stable h hlegal
  intro t ht
  have hmem := List.mem_map_of_mem (f := Token.reading) ht
  rw [hread, List.mem_append, List.mem_map, List.mem_singleton] at hmem
  obtain ⟨kind, literal, raw, pos⟩ := t
  rcases hmem with ⟨l, hl, heq⟩ | heq
  · cases heq
    exact .inr ⟨l, pos, hls l hl, rfl⟩
  · cases heq
    exact .inl ⟨pos, rfl⟩

/-- Words, numbers and punctuation stand for themselves. -/
theorem Rereadable.literal_eq_raw (h : Rereadable t) (hk : t.kind ∉ Token.quotedKinds) :
    t.literal = t.raw := by
  rcases h with ⟨_, rfl⟩ | ⟨l, _, hl, rfl⟩
  · rfl
  · exact (Token.scanned_of_scan hl.scan_raw).literal_eq_raw hk

theorem tokenText_cons (hl : l.Stable) (afterWord : Bool) (seat : Pos)
    (run : List Token) : tokenText afterWord (l.toToken seat :: run) =
      (if isWord l.kind && afterWord then [Ascii.blank] else []) ++
        (l.raw ++ tokenText (isWord l.kind) run) := by
  simp [tokenText, Token.Lexeme.toToken, hl.nonempty]

theorem filter_cons_lexeme (hl : l.Stable) (seat : Pos) (run : List Token) :
    (l.toToken seat :: run).filter (·.kind ≠ .eof) =
      l.toToken seat :: run.filter (·.kind ≠ .eof) :=
  List.filter_cons_of_pos (decide_eq_true hl.ne_eof)

/-! ## Comments

A comment takes a slash away and an interpreter line a hash. The tokens that are left lack it,
unless one of them spells it in another way, as literals can. -/

/-- No token is a literal or a lifetime. -/
def Unquoted (run : List Token) : Prop := ∀ t ∈ run, t.kind ∉ Token.quotedKinds

theorem count_tokenText (hc : c ≠ Ascii.blank) (hrun : ∀ t ∈ run, Rereadable t)
    (hq : Unquoted run) (afterWord : Bool) : (tokenText afterWord run).count c =
      (((run.filter (·.kind ≠ .eof)).map shown).flatMap (·.2)).count c := by
  induction run generalizing afterWord with
  | nil => rfl
  | cons t run ih =>
    obtain ⟨ht, hrest⟩ := List.forall_mem_cons.mp hrun
    obtain ⟨hk, hlater⟩ := List.forall_mem_cons.mp hq
    rcases ht with ⟨_, rfl⟩ | ⟨l, seat, hl, rfl⟩
    · exact ih hrest hlater false
    · have hblank : (if isWord l.kind && afterWord then [Ascii.blank] else []).count c = 0 := by
        split
        · exact List.count_eq_zero.mpr (by simpa using hc)
        · rfl
      rw [tokenText_cons hl, filter_cons_lexeme hl, List.count_append, hblank, List.count_append,
        ih hrest hlater, Nat.zero_add, ← (Token.scanned_of_scan hl.scan_raw).literal_eq_raw hk,
        ← List.count_append]
      rfl

/-- A text that is read as the tokens has all their bytes. -/
theorem count_le_of_matches (hc : c ≠ Ascii.blank) (hrun : ∀ t ∈ run, Rereadable t)
    (hq : Unquoted run) (h : Token.tokensFrom 0 text pos = .ok again) (hshown : Matches run again) :
    (tokenText false run).count c ≤ text.count c := by
  have hkinds : ∀ p ∈ again.map shown, p.1 ∉ Token.quotedKinds := by
    rw [hshown, List.forall_mem_append, List.forall_mem_map, List.forall_mem_singleton]
    exact ⟨fun t ht => hq t (List.mem_filter.mp ht).1, by decide⟩
  have hillegal : Token.Kind.illegal ∈ Token.quotedKinds := by decide
  have hlegal : ∀ t ∈ again, t.kind ≠ .illegal := fun t ht hk =>
    hkinds (shown t) (List.mem_map_of_mem ht) (show t.kind ∈ _ from hk ▸ hillegal)
  have hspelled : (again.map shown).flatMap (·.2) = again.flatMap (·.raw) := by
    rw [List.flatMap_map, List.flatMap_def, List.flatMap_def]
    exact congrArg List.flatten (List.map_congr_left fun t ht =>
      (rereadable_of_tokensFrom h hlegal t ht).literal_eq_raw (hkinds _ (List.mem_map_of_mem ht)))
  obtain ⟨_, _, _, hsub⟩ := Token.exists_spellings h hlegal
  rw [← hspelled, hshown, List.flatMap_append] at hsub
  rw [count_tokenText hc hrun hq]
  exact ((List.sublist_append_left _ _).trans hsub).count_le c

/-- What is read behind a comment. -/
theorem tokensFrom_comment (hc : text.headD 0 = Ascii.slash ∨ text.headD 0 = Ascii.star)
    (h : Token.tokensFrom 0 (Ascii.slash :: text) pos = .ok again) :
    ∃ later pos', later <:+ text ∧ Token.tokensFrom 0 later pos' = .ok again := by
  obtain ⟨gap, later, hgap⟩ := Token.exists_gap (Ascii.slash :: text)
  cases gap with
  | nil =>
    have hstop := hgap.stop
    rw [← List.nil_append later, ← hgap.split] at hstop
    exact absurd ⟨rfl, hc⟩ (Token.triviaWidth_cons_eq_zero.mp hstop).2
  | cons b gap =>
    rw [hgap.split, hgap.skipped] at h
    exact ⟨later, _, ⟨gap, (List.cons.inj hgap.split).2.symm⟩, h⟩

/-! ## Reading -/

/-- In front of a text stands its first token, behind a blank or not. -/
theorem tokensFrom_first (hl : l.Stable) (afterWord : Bool) (seat : Pos) (run : List Token)
    (pos : Pos) :
    ∃ pos', Token.tokensFrom 0 (tokenText afterWord (l.toToken seat :: run)) pos =
      Token.tokensFrom 0 (l.raw ++ tokenText (isWord l.kind) run) pos' := by
  rw [tokenText_cons hl]
  by_cases hb : (isWord l.kind && afterWord) = true
  · rw [if_pos hb]
    exact ⟨_, Token.skipped_blank rfl _ pos⟩
  · rw [if_neg hb]
    exact ⟨pos, rfl⟩

/-- From the first token that clings on, other tokens are read. -/
theorem tokensFrom_tokenText (hrun : ∀ t ∈ run, Rereadable t)
    (hq : Uncommented run ∨ Unquoted run) (afterWord : Bool) (pos : Pos) :
    (∃ again, Token.tokensFrom 0 (tokenText afterWord run) pos = .ok again ∧ Matches run again) ↔
      Uncommented run ∧ Loose run := by
  induction run generalizing afterWord pos with
  | nil =>
    have hnone {P : Token → Bytes → Prop} : Throughout P [] := fun t after hs => by simp at hs
    exact iff_of_true ⟨_, rfl, rfl⟩ ⟨hnone, hnone⟩
  | cons t run ih =>
    obtain ⟨ht, hrest⟩ := List.forall_mem_cons.mp hrun
    replace ih := ih hrest (hq.imp (throughout_cons.mp · |>.2) (List.forall_mem_cons.mp · |>.2))
    rw [Loose, Uncommented, throughout_cons, throughout_cons, and_and_and_comm, ← Loose,
      ← Uncommented]
    rcases ht with ⟨_, rfl⟩ | ⟨l, seat, hl, rfl⟩
    · have hno {rest : Bytes} : ¬ Token.Clings .eof [] [] rest := by
        intro h
        cases h with
        | name h | mark h | number h | operator h => exact absurd h (by decide)
        | character h => cases h
      have hempty {rest : Bytes} : ¬ Token.OpensComment [] rest := fun h => by cases h.1
      exact (ih false pos).trans (and_iff_right ⟨hempty, hno⟩).symm
    · obtain ⟨pos', htext⟩ := tokensFrom_first hl afterWord seat run pos
      rw [htext]
      by_cases hc : Token.OpensComment l.raw (tokenText (isWord l.kind) run)
      · refine iff_of_false ?_ fun h => h.1.1 hc
        rintro ⟨again, hagain, hshown⟩
        rw [hc.1] at hagain
        obtain ⟨later, _, hlater, hagain⟩ := tokensFrom_comment hc.2 hagain
        have hunquoted := hq.resolve_left fun h => (throughout_cons.mp h).1 hc
        have hslash : Ascii.slash ≠ Ascii.blank := by decide
        have hle := count_le_of_matches hslash hrun hunquoted hagain hshown
        rw [tokenText_cons hl, Bool.and_false, hc.1] at hle
        have hfewer := hlater.sublist.count_le Ascii.slash
        simp at hle
        omega
      simp only [Matches, filter_cons_lexeme hl]
      constructor
      · rintro ⟨again, hagain, hshown⟩
        rcases Token.tokensFrom_cases (hl.triviaWidth_eq hc) hagain with
          ⟨hend, _⟩ | ⟨_, l', more, hscan, rfl, hmore⟩
        · exact absurd hend (hl.not_atEnd _)
        · obtain ⟨hfirst, hrest⟩ := List.cons.inj hshown
          obtain ⟨hkind, hliteral⟩ := Prod.mk.inj hfirst
          have hfree := hl.not_clings_of_scan hscan hkind hliteral
          cases hscan.symm.trans (hl.scan_append hfree)
          rw [hl.tokensFrom_width] at hmore
          exact ⟨⟨hc, hfree⟩, (ih _ _).mp ⟨more, hmore, hrest⟩⟩
      · rintro ⟨⟨_, hfree⟩, hloose⟩
        obtain ⟨more, hmore, hrest⟩ := (ih _ (pos'.afterAll l.raw)).mpr hloose
        exact ⟨_, hl.tokensFrom_append hfree hc hmore, congrArg (_ :: ·) hrest⟩

/-- A text is read as its tokens exactly if none of them clings to what is written behind it and
no comment comes about. -/
theorem relexed_iff_loose (hrun : ∀ t ∈ run, Rereadable t) (hq : Plain run ∨ Unquoted run) :
    ReadsAs (tokenText false run) run ↔ Plain run ∧ Loose run := by
  by_cases hline : Token.interpreterLineWidth (tokenText false run) = 0
  · rw [ReadsAs, Token.tokenize, hline,
      tokensFrom_tokenText hrun (hq.imp_left (·.slash)) false Pos.start]
    exact ⟨fun h => ⟨⟨h.1, hline⟩, h.2⟩, fun h => ⟨h.1.slash, h.2⟩⟩
  · refine iff_of_false ?_ fun h => hline h.1.hash
    rintro ⟨again, hagain, hshown⟩
    rw [Token.tokenize, Token.tokensFrom_skip (Token.interpreterLineWidth_le _)] at hagain
    have hunquoted := hq.resolve_left fun h => hline h.hash
    have hhash : Ascii.hash ≠ Ascii.blank := by decide
    have hle := count_le_of_matches hhash hrun hunquoted hagain hshown
    have hfirst : (tokenText false run).headD 0 = Ascii.hash :=
      Classical.byContradiction fun h => hline (Token.interpreterLineWidth_eq_zero h)
    obtain ⟨inner, hcons⟩ := Token.eq_cons_of_headD hfirst (by decide)
    obtain ⟨w, hw⟩ := Nat.exists_eq_succ_of_ne_zero hline
    rw [hw, hcons, List.drop_succ_cons, List.count_cons_self] at hle
    have hfewer := (List.drop_sublist w inner).count_le Ascii.hash
    omega

/-! ## Accepted sources -/

theorem parseFile_legal {file : File} (h : parseFile source = .ok file)
    (ht : Token.tokenize source = .ok tokens) : ∀ t ∈ tokens, t.kind ≠ .illegal := by
  obtain ⟨_, more, hparse⟩ := parse_reports_illegal ht
  rw [parseFile, hparse] at h
  simp only at h
  split at h
  · cases h
  · rename_i hb
    intro t hmem hk
    have hfound : t ∈ tokens.filter (·.kind = .illegal) :=
      List.mem_filter.mpr ⟨hmem, decide_eq_true hk⟩
    exact hb (List.any_eq_true.mpr ⟨_, List.mem_append_left _ (List.mem_map_of_mem hfound), rfl⟩)

/-- The types and paths in the tree of an accepted source are texts of its tokens. Such a text is
read as the tokens that it was made of exactly if no comment or interpreter line comes about and
no token clings to what is written behind it. (If one comes about behind a literal, the text of
the literal might be read as tokens.) -/
theorem accepted_texts_reread_iff {file : File} (h : parseFile source = .ok file) :
    ∃ tokens, Token.tokenize source = .ok tokens ∧ (∀ i ∈ file.items, PlacedItem tokens i) ∧
      ∀ run, run <:+: tokens → Plain run ∨ Unquoted run →
        (ReadsAs (tokenText false run) run ↔ Plain run ∧ Loose run) := by
  obtain ⟨tokens, ht, hplaced⟩ := parseFile_placed h
  refine ⟨tokens, ht, hplaced, fun run hrun hq => relexed_iff_loose (fun t hmem => ?_) hq⟩
  have hlegal := parseFile_legal h ht
  rw [Token.tokenize, Token.tokensFrom_skip (Token.interpreterLineWidth_le source)] at ht
  exact rereadable_of_tokensFrom ht hlegal t (hrun.subset hmem)

/-- A blank stands between the lifetime and the name, and nothing else clings. -/
theorem accepted_texts_reread_iff_reference :
    ∃ file tokens, parseFile "fn f(x:&'a T<u8>);" = .ok file ∧
      Token.tokenize "fn f(x:&'a T<u8>);" = .ok tokens ∧ ∃ run, run <:+: tokens ∧
        tokenText false run = "&'a T<u8>" ∧ Plain run ∧ Loose run := by
  have hok : (parseFile "fn f(x:&'a T<u8>);").toOption.isSome = true := by decide +kernel
  obtain ⟨file, hfile⟩ := Option.isSome_iff_exists.mp hok
  obtain ⟨tokens, ht, -, hiff⟩ := accepted_texts_reread_iff (ok_of_toOption hfile)
  let run := (tokens.drop 5).take 6
  have hrun : run <:+: tokens :=
    (List.take_prefix 6 _).isInfix.trans (List.drop_suffix 5 tokens).isInfix
  obtain ⟨htext, hslash, hreads⟩ : tokenText false run = "&'a T<u8>" ∧
      (∀ t ∈ run, t.raw ≠ [Ascii.slash]) ∧ ReadsAs "&'a T<u8>" run := by
    cases ht
    exact ⟨rfl, by decide, _, rfl, by decide⟩
  have hplain : Plain run :=
    ⟨fun t after hs hc => hslash t (hs.subset List.mem_cons_self) hc.1, by rw [htext]; rfl⟩
  exact ⟨file, tokens, ok_of_toOption hfile, ht, run, hrun, htext, hplain,
    ((hiff run hrun (.inl hplain)).mp (htext ▸ hreads)).2⟩

/-- The lone underscore is written behind the keyword without a blank. -/
theorem underscore_clings :
    ∃ tokens, Token.tokenize "use a as _;" = .ok tokens ∧
      parseFile "use a as _;" = .ok ⟨[.use "a as_" ⟨1, 1⟩]⟩ ∧
      tokenText false ((tokens.drop 1).take 3) = "a as_" ∧
      ¬ ReadsAs "a as_" ((tokens.drop 1).take 3) := by
  refine ⟨_, rfl, rfl, rfl, ?_⟩
  rintro ⟨again, hagain, hshown⟩
  cases hagain
  exact absurd hshown (by decide)

end RustLua.Parser
