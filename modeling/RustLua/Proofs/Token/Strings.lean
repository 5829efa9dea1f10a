import Mathlib.Data.List.Induction
import RustLua.Proofs.Bytes.Utf8
import RustLua.Proofs.Token.Bounds
import RustLua.Proofs.Token.Integers

/-! # String literals

Both kinds of string literals, each against a description that does not read anything. What
stands between quotes is a sequence of pieces, most of them bytes that stand for themselves;
only a line break behind a backslash has to be told how far it goes. What stands in a raw
string is any text without the closing mark. -/
namespace RustLua.Token

variable {text value : Bytes} {n : Nat} {digits : Bytes}

/-! ## Pieces -/

/-- The escapes of one byte, each with the byte that it stands for. -/
def byteEscapes : List (UInt8 × UInt8) :=
  [(Bytes.ofAscii 'n', 10), (Bytes.ofAscii 'r', 13), (Bytes.ofAscii 't', 9),
    (Bytes.ofAscii '0', 0), (Ascii.backslash, Ascii.backslash),
    (Ascii.apostrophe, Ascii.apostrophe), (Ascii.quote, Ascii.quote)]

/-- What may stand behind a backslash, line breaks apart, and the bytes that it stands for. -/
inductive Escape : Bytes → Bytes → Prop
  | byte {b v : UInt8} (h : (b, v) ∈ byteEscapes) : Escape [b] [v]
  | hex {a b : UInt8} {high low : Nat} (hhigh : high < 16) (hlow : low < 16)
      (ha : IsDigit high a) (hb : IsDigit low b) (hle : high * 16 + low ≤ 0x7F) :
      Escape [Bytes.ofAscii 'x', a, b] [(high * 16 + low).toUInt8]
  | unicode {digits : Bytes} {c : Char}
      (h : Numeral 16 c.toNat (digits.filter (· != Ascii.underscore))) :
      Escape (Bytes.ofAscii 'u' :: Ascii.braceOpen :: (digits ++ [Ascii.braceClose]))
        (Utf8.encode c)

/-- The inside of a string, and the bytes that it stands for. A line break behind a backslash
takes all layout that follows it. -/
inductive Pieces : Bytes → Bytes → Prop
  | nil : Pieces [] []
  | plain {b : UInt8} {rest value : Bytes} (hquote : b ≠ Ascii.quote)
      (hslash : b ≠ Ascii.backslash) (hnul : b ≠ Ascii.nul) (h : Pieces rest value) :
      Pieces (b :: rest) (b :: value)
  | escape {e v rest value : Bytes} (he : Escape e v) (h : Pieces rest value) :
      Pieces (Ascii.backslash :: (e ++ rest)) (v ++ value)
  | lineBreak {run rest value : Bytes} (hrun : ∀ b ∈ run, Ascii.isLayout b = true)
      (hstop : ∀ b ∈ rest.head?, Ascii.isLayout b = false) (h : Pieces rest value) :
      Pieces (Ascii.backslash :: Ascii.newline :: (run ++ rest)) value

/-! ## Hexadecimal numbers -/

theorem isDigit_of_digitValue? {b : UInt8} {k : Nat} (h : Bytes.digitValue? 16 b = some k) :
    k < 16 ∧ IsDigit k b := by
  have hall : ∀ m < 256, ∀ k ∈ Bytes.digitValue? 16 (UInt8.ofNat m), k < 16 ∧
      (UInt8.ofNat m = Bytes.ofAscii k.digitChar ∨
        UInt8.ofNat m = Bytes.ofAscii k.digitChar.toUpper) := by
    decide +kernel
  have hb := hall b.toNat b.toNat_lt k
  rw [UInt8.ofNat_toNat] at hb
  exact hb h

/-- What is worth a number is a numeral of it. -/
theorem numeral_of_digitsValue? (h : Bytes.digitsValue? 16 text = some n) :
    Numeral 16 n text := by
  unfold Bytes.digitsValue? at h
  split at h
  · cases h
  rename_i hne
  replace hne : text ≠ [] := by simpa using hne
  induction text using List.reverseRecOn generalizing n with
  | nil => exact absurd rfl hne
  | append_singleton front b ih =>
    rw [List.foldlM_append] at h
    obtain ⟨m, hm, hlast⟩ := Option.bind_eq_some_iff.mp h
    have hlast : (Bytes.digitValue? 16 b).map (m * 16 + ·) = some n := by simpa using hlast
    obtain ⟨k, hk, rfl⟩ := Option.map_eq_some_iff.mp hlast
    obtain ⟨hlt, hdigit⟩ := isDigit_of_digitValue? hk
    cases front with
    | nil =>
      cases hm
      simpa using Numeral.digit hlt hdigit
    | cons c front => exact (ih hm (by simp)).behind hlt hdigit

theorem IsDigit.digitsValue?_pair {a b : UInt8} {high low : Nat} (ha : IsDigit high a)
    (hb : IsDigit low b) (hhigh : high < 16) (hlow : low < 16) :
    Bytes.digitsValue? 16 [a, b] = some (high * 16 + low) := by
  simp [Bytes.digitsValue?, ha.digitValue? hhigh, hb.digitValue? hlow]

theorem scalar?_eq_some_iff {c : Char} :
    scalar? digits = some c ↔ Bytes.digitsValue? 16 digits = some c.toNat := by
  unfold scalar?
  cases hd : Bytes.digitsValue? 16 digits with
  | none => simp
  | some n =>
    simp only [Option.some.injEq]
    split
    · rename_i hn
      rw [Option.some.injEq]
      constructor
      · rintro rfl
        exact (Utf8.toNat_ofNat hn).symm
      · rintro rfl
        exact Char.ofNat_toNat c
    · rename_i hn
      refine iff_of_false (by simp) ?_
      rintro rfl
      exact hn c.valid

/-! ## Escapes -/

theorem hexEscape_complete {a b : UInt8} {high low : Nat} (hhigh : high < 16) (hlow : low < 16)
    (ha : IsDigit high a) (hb : IsDigit low b) (hle : high * 16 + low ≤ 0x7F) (rest : Bytes) :
    hexEscape (a :: b :: rest) = .value [(high * 16 + low).toUInt8] 3 := by
  have hvalue : Bytes.digitsValue? 16 ((a :: b :: rest).take 2) = some (high * 16 + low) :=
    ha.digitsValue?_pair hb hhigh hlow
  have hfits : ¬ ((a :: b :: rest).length < 2 ∨ 0x7F < high * 16 + low) := by
    rw [List.length_cons, List.length_cons]
    omega
  rw [hexEscape, hvalue]
  exact if_neg hfits

theorem hexEscape_sound (h : hexEscape text = .value value n) :
    ∃ e rest, text = e ++ rest ∧ n = e.length + 1 ∧ Escape (Bytes.ofAscii 'x' :: e) value := by
  obtain ⟨rfl, hlength⟩ := hexEscape_value h
  rcases text with - | ⟨a, - | ⟨b, rest⟩⟩
  · cases hlength
  · exact absurd hlength (by simp)
  unfold hexEscape at h
  split at h
  · rename_i m hm
    split at h
    · cases h
    rename_i hfits
    cases h
    -- the value of two digits has one digit for each
    obtain ⟨m', hm', hlast⟩ := Option.bind_eq_some_iff.mp
      (show (Bytes.digitValue? 16 a).map (0 * 16 + ·) >>= _ = some m from hm)
    obtain ⟨high, hhigh, rfl⟩ := Option.map_eq_some_iff.mp hm'
    have hlast : (Bytes.digitValue? 16 b).map ((0 * 16 + high) * 16 + ·) = some m := by
      simpa using hlast
    obtain ⟨low, hlow, rfl⟩ := Option.map_eq_some_iff.mp hlast
    obtain ⟨hhigh', ha⟩ := isDigit_of_digitValue? hhigh
    obtain ⟨hlow', hb⟩ := isDigit_of_digitValue? hlow
    rw [Nat.zero_mul, Nat.zero_add] at hfits ⊢
    exact ⟨[a, b], rest, rfl, rfl, .hex hhigh' hlow' ha hb (by omega)⟩
  · cases h

theorem isScalarInner_of_numeral
    (h : Numeral 16 n (digits.filter (· != Ascii.underscore))) :
    ∀ b ∈ digits, isScalarInner b = true := by
  have hmark : ∀ b, isHexMark b = true → isScalarInner b = true := by
    intro b hb
    simp only [isScalarInner, Bool.and_eq_true, bne_iff_ne]
    refine ⟨⟨?_, ?_⟩, ?_⟩ <;> rintro rfl <;> cases hb
  intro b hb
  by_cases hu : b = Ascii.underscore
  · rw [hu]
    decide
  · exact hmark b (h.isHexMark (Nat.le_refl 16) b (List.mem_filter.mpr ⟨hb, bne_iff_ne.mpr hu⟩))

theorem unicodeEscape_complete {c : Char}
    (h : Numeral 16 c.toNat (digits.filter (· != Ascii.underscore))) (rest : Bytes) :
    unicodeEscape (Ascii.braceOpen :: (digits ++ Ascii.braceClose :: rest)) =
      .value (Utf8.encode c) (digits.length + 3) := by
  have hinner : (digits ++ Ascii.braceClose :: rest).takeWhile isScalarInner = digits := by
    rw [List.takeWhile_append_of_pos (isScalarInner_of_numeral h)]
    exact List.append_nil digits
  have hclose : (digits ++ Ascii.braceClose :: rest).getD digits.length 0 = Ascii.braceClose := by
    simp
  have hscalar : scalar? (digits.filter (· != Ascii.underscore)) = some c := by
    refine scalar?_eq_some_iff.mpr ?_
    have hvalue := h.digitsValue? (Nat.le_refl 16)
    rwa [List.filter_filter, show (fun b => b != Ascii.underscore && b != Ascii.underscore) =
      (· != Ascii.underscore) from funext fun b => Bool.and_self _] at hvalue
  rw [unicodeEscape_cons, if_pos rfl, hinner, if_pos hclose, hscalar]

theorem unicodeEscape_sound (h : unicodeEscape text = .value value n) :
    ∃ e rest, text = e ++ rest ∧ n = e.length + 1 ∧ Escape (Bytes.ofAscii 'u' :: e) value := by
  cases text with
  | nil => cases h
  | cons b text =>
    rw [unicodeEscape_cons] at h
    split at h
    · rename_i hopen
      split at h
      · rename_i hclose
        split at h
        · rename_i c hc
          cases h
          have hdigits := numeral_of_digitsValue? (scalar?_eq_some_iff.mp hc)
          have hlt : (text.takeWhile isScalarInner).length < text.length :=
            lt_length_of_getD_ne (by rw [hclose]; decide)
          refine ⟨Ascii.braceOpen :: (text.takeWhile isScalarInner ++ [Ascii.braceClose]),
            text.drop ((text.takeWhile isScalarInner).length + 1), ?_, by simp, .unicode hdigits⟩
          rw [List.getD_eq_getElem _ _ hlt] at hclose
          have hsplit := List.take_append_drop (text.takeWhile isScalarInner).length text
          rw [take_length_takeWhile, List.drop_eq_getElem_cons hlt, hclose] at hsplit
          rw [hopen, List.cons_append, List.append_assoc, List.singleton_append, hsplit]
        · cases h
      · cases h
    · cases h

/-- An escape is read as what it stands for, whatever follows. -/
theorem Escape.escape_eq {e v : Bytes} (h : Escape e v) (rest : Bytes) :
    Token.escape (e ++ rest) = .value v e.length := by
  cases h with
  | byte h =>
    have hall : ∀ p ∈ byteEscapes, ∀ rest, Token.escape (p.1 :: rest) = .value [p.2] 1 := by
      simp only [byteEscapes, List.forall_mem_cons]
      exact ⟨fun _ => rfl, fun _ => rfl, fun _ => rfl, fun _ => rfl, fun _ => rfl, fun _ => rfl,
        fun _ => rfl, by simp⟩
    exact hall _ h rest
  | hex hhigh hlow ha hb hle => exact hexEscape_complete hhigh hlow ha hb hle rest
  | @unicode digits c h =>
    have hread := unicodeEscape_complete h rest
    rw [List.cons_append, List.cons_append, List.append_assoc, List.singleton_append]
    exact hread.trans (by simp)

theorem takeWhile_layout {run rest : Bytes} (hrun : ∀ b ∈ run, Ascii.isLayout b = true)
    (hstop : ∀ b ∈ rest.head?, Ascii.isLayout b = false) :
    (run ++ rest).takeWhile Ascii.isLayout = run := by
  rw [List.takeWhile_append_of_pos hrun]
  cases rest with
  | nil => exact List.append_nil run
  | cons b rest =>
    rw [List.takeWhile_cons, hstop b rfl]
    exact List.append_nil run

theorem escape_lineBreak {run rest : Bytes} (hrun : ∀ b ∈ run, Ascii.isLayout b = true)
    (hstop : ∀ b ∈ rest.head?, Ascii.isLayout b = false) :
    Token.escape (Ascii.newline :: (run ++ rest)) = .value [] (1 + run.length) := by
  have hread : Token.escape (Ascii.newline :: (run ++ rest)) =
      .value [] (1 + ((run ++ rest).takeWhile Ascii.isLayout).length) := rfl
  rw [hread, takeWhile_layout hrun hstop]

/-- What is read behind a backslash is an escape or a line break. -/
theorem escape_sound (h : escape text = .value value n) :
    (∃ e rest, text = e ++ rest ∧ n = e.length ∧ Escape e value) ∨
      ∃ run rest, text = Ascii.newline :: (run ++ rest) ∧ n = 1 + run.length ∧ value = [] ∧
        (∀ b ∈ run, Ascii.isLayout b = true) ∧ ∀ b ∈ rest.head?, Ascii.isLayout b = false := by
  rcases text with - | ⟨b, rest⟩
  · cases h
  have hbyte {v : UInt8} (hv : (b, v) ∈ byteEscapes) (hr : Reading.value [v] 1 = .value value n) :
      ∃ e rest', b :: rest = e ++ rest' ∧ n = e.length ∧ Escape e value := by
    cases hr
    exact ⟨[b], rest, rfl, rfl, .byte hv⟩
  simp only [escape, List.headD_cons, List.drop_succ_cons, List.drop_zero] at h
  -- by what the byte is, in the order of the definition
  split at h
  · rename_i hb
    exact .inl (hbyte (by rw [hb]; decide) h)
  split at h
  · rename_i hb
    exact .inl (hbyte (by rw [hb]; decide) h)
  split at h
  · rename_i hb
    exact .inl (hbyte (by rw [hb]; decide) h)
  split at h
  · rename_i hb
    exact .inl (hbyte (by rw [hb]; decide) h)
  split at h
  · rename_i hb
    refine .inl (hbyte ?_ h)
    rcases hb with rfl | rfl | rfl <;> decide
  split at h
  · rename_i hb
    cases h
    refine .inr ⟨rest.takeWhile Ascii.isLayout, rest.dropWhile Ascii.isLayout, ?_, rfl, rfl,
      fun c hc => List.mem_takeWhile_imp hc, fun c hc => ?_⟩
    · rw [hb, List.takeWhile_append_dropWhile]
    · have hhead := List.head?_dropWhile_not Ascii.isLayout rest
      rw [Option.mem_def.mp hc] at hhead
      exact hhead
  split at h
  · rename_i hb
    obtain ⟨e, after, rfl, rfl, he⟩ := hexEscape_sound h
    exact .inl ⟨b :: e, after, rfl, rfl, by rwa [hb]⟩
  split at h
  · rename_i hb
    obtain ⟨e, after, rfl, rfl, he⟩ := unicodeEscape_sound h
    exact .inl ⟨b :: e, after, rfl, rfl, by rwa [hb]⟩
  · cases h

/-! ## Strings between quotes -/

theorem quotedFrom_escape {e v rest : Bytes} (h : Token.escape (e ++ rest) = .value v e.length) :
    quotedFrom 0 (Ascii.backslash :: (e ++ rest)) =
      (quotedFrom 0 rest).behind v (1 + e.length) := by
  rw [quotedFrom, if_neg (by decide), if_neg (by decide), if_pos rfl, h]
  simp only
  rw [quotedFrom_skip (by simp), List.drop_left, Reading.behind_behind, List.append_nil]

/-- Pieces in front of a quote are read as what they stand for. -/
theorem Pieces.quoted_eq {body : Bytes} (h : Pieces body value) (rest : Bytes) :
    quoted (body ++ Ascii.quote :: rest) = .value value (body.length + 1) := by
  rw [quoted]
  induction h with
  | nil => rfl
  | plain hquote hslash hnul _ ih =>
    rw [List.cons_append, quotedFrom, if_neg hquote, if_neg hnul, if_neg hslash, ih]
    simp [Reading.behind, Nat.add_comm]
  | escape he _ ih =>
    rw [List.cons_append, List.append_assoc, quotedFrom_escape (he.escape_eq _), ih]
    simp [Reading.behind]
    omega
  | @lineBreak run after value hrun hstop _ ih =>
    have hstop' : ∀ b ∈ (after ++ Ascii.quote :: rest).head?, Ascii.isLayout b = false := by
      cases after with
      | nil => simpa using (by decide : Ascii.isLayout Ascii.quote = false)
      | cons c after => exact hstop
    have hbreak : Token.escape ((Ascii.newline :: run) ++ (after ++ Ascii.quote :: rest)) =
        .value [] (Ascii.newline :: run).length := by
      rw [List.length_cons, Nat.add_comm]
      exact escape_lineBreak hrun hstop'
    have hsplit : Ascii.backslash :: Ascii.newline :: (run ++ after) ++ Ascii.quote :: rest =
        Ascii.backslash :: ((Ascii.newline :: run) ++ (after ++ Ascii.quote :: rest)) := by simp
    rw [hsplit, quotedFrom_escape hbreak, ih]
    simp [Reading.behind]
    omega

/-- What is read as a string consists of pieces. -/
theorem pieces_of_quoted (h : quoted text = .value value n) :
    ∃ body rest, text = body ++ Ascii.quote :: rest ∧ n = body.length + 1 ∧ Pieces body value := by
  induction hm : text.length using Nat.strongRecOn generalizing text value n with
  | _ m ih =>
    subst hm
    rcases text with - | ⟨b, text⟩
    · cases h
    rw [quoted, quotedFrom] at h
    split at h
    · rename_i hb
      cases h
      exact ⟨[], text, by rw [hb]; rfl, rfl, .nil⟩
    split at h
    · cases h
    split at h
    · rename_i hquote hnul hslash
      split at h
      · rename_i v k he
        have hk := escape_value_le he
        rw [quotedFrom_skip hk, Reading.behind_behind] at h
        obtain ⟨value', m, hrest, rfl, rfl⟩ := Reading.of_behind_eq_value h
        have hshorter : (text.drop k).length < (b :: text).length := by
          rw [List.length_drop, List.length_cons]
          omega
        obtain ⟨body, rest, hsplit, rfl, hbody⟩ := ih _ hshorter hrest rfl
        rcases escape_sound he with ⟨e, after, rfl, rfl, he'⟩ | ⟨run, after, rfl, rfl, rfl, hrun, hstop⟩
        · rw [List.drop_left] at hsplit
          subst hsplit
          refine ⟨Ascii.backslash :: (e ++ body), rest, by rw [hslash]; simp, by simp; omega, ?_⟩
          rw [List.append_nil]
          exact .escape he' hbody
        · have hdrop : (Ascii.newline :: (run ++ after)).drop (1 + run.length) = after := by
            rw [Nat.add_comm, List.drop_succ_cons, List.drop_left]
          rw [hdrop] at hsplit
          subst hsplit
          refine ⟨Ascii.backslash :: Ascii.newline :: (run ++ body), rest, by rw [hslash]; simp,
            by simp; omega, .lineBreak hrun (fun c hc => hstop c ?_) hbody⟩
          cases body with
          | nil => cases hc
          | cons d body => exact hc
      · cases h
    · rename_i hquote hnul hslash
      obtain ⟨value', m, hrest, rfl, rfl⟩ := Reading.of_behind_eq_value h
      obtain ⟨body, rest, rfl, rfl, hbody⟩ := ih text.length (by simp) hrest rfl
      exact ⟨b :: body, rest, rfl, by simp; omega, .plain hquote hslash hnul hbody⟩

theorem visible_of_not_layout {b : UInt8} (hlayout : Ascii.isLayout b = false)
    (hslash : b ≠ Ascii.slash) (rest : Bytes) : triviaWidth (b :: rest) = 0 :=
  triviaWidth_cons_eq_zero.mpr ⟨Bool.eq_false_iff.mp hlayout, fun h => hslash h.1⟩

/-- What is neither layout nor the end starts with its token, and the others follow. -/
theorem tokensFrom_eq_map {l : Lexeme} (hvisible : triviaWidth text = 0) (hend : ¬ AtEnd text)
    (hl : scan text = .ok l) (pos : Pos) :
    tokensFrom 0 text pos = (tokensFrom l.width text pos).map (l.toToken pos :: ·) := by
  rw [tokensFrom_scan hvisible hend, hl]
  simp only
  cases tokensFrom l.width text pos with
  | error fault => rfl
  | ok more => rfl

theorem scan_quote (text : Bytes) :
    scan (Ascii.quote :: text) =
      .ok (Lexeme.ofReading .stringLit (Ascii.quote :: text) ((quoted text).behind [] 1)) := by
  have hstart : Start (Ascii.quote :: text) stringAt := .string rfl
  exact hstart.scan_eq

theorem Pieces.scan_eq {body : Bytes} (h : Pieces body value) (rest : Bytes) :
    scan (Ascii.quote :: (body ++ Ascii.quote :: rest)) =
      .ok ⟨.stringLit, value, Ascii.quote :: (body ++ [Ascii.quote]), body.length + 2⟩ := by
  have hread : (quoted (body ++ Ascii.quote :: rest)).behind [] 1 =
      .value value (body.length + 2) := by
    rw [h.quoted_eq, Reading.behind, Nat.add_comm 1]
    rfl
  have hraw : (Ascii.quote :: (body ++ Ascii.quote :: rest)).take (body.length + 2) =
      Ascii.quote :: (body ++ [Ascii.quote]) := by
    rw [List.take_succ_cons, List.take_length_add_append]
    rfl
  rw [scan_quote, hread, Lexeme.ofReading, hraw]

theorem pieces_of_scan {l : Lexeme} (hl : scan (Ascii.quote :: text) = .ok l) :
    (∃ body rest value, text = body ++ Ascii.quote :: rest ∧ Pieces body value) ∨
      l.kind = .illegal := by
  rw [scan_quote] at hl
  cases hl
  cases hread : quoted text with
  | fault error n => exact .inr rfl
  | value bytes n =>
    obtain ⟨body, rest, hsplit, _, hbody⟩ := pieces_of_quoted hread
    exact .inl ⟨body, rest, bytes, hsplit, hbody⟩

/-- A quote starts a string literal where pieces up to a quote follow, and something illegal
elsewhere. The literal stands for what its pieces stand for and is spelled by what it takes. -/
theorem string_iff_pieces (text : Bytes) :
    ∃ l, scan (Ascii.quote :: text) = .ok l ∧
      (∀ pos, tokensFrom 0 (Ascii.quote :: text) pos =
        (tokensFrom l.width (Ascii.quote :: text) pos).map (l.toToken pos :: ·)) ∧
      (∀ value raw width, l = ⟨.stringLit, value, raw, width⟩ ↔
        ∃ body rest, text = body ++ Ascii.quote :: rest ∧ Pieces body value ∧
          raw = Ascii.quote :: (body ++ [Ascii.quote]) ∧ width = raw.length) ∧
      (l.kind = .stringLit ∨ l.kind = .illegal) := by
  have hvisible := visible_of_not_layout (b := Ascii.quote) (by decide) (by decide) text
  have hend : ¬ AtEnd (Ascii.quote :: text) := fun h => absurd (h _ rfl) (by decide)
  obtain ⟨l, hl⟩ : ∃ l, scan (Ascii.quote :: text) = .ok l := ⟨_, scan_quote text⟩
  have hcomplete : ∀ {body rest value}, text = body ++ Ascii.quote :: rest → Pieces body value →
      l = ⟨.stringLit, value, Ascii.quote :: (body ++ [Ascii.quote]), body.length + 2⟩ := by
    rintro body rest value rfl hbody
    exact Except.ok.inj (hl.symm.trans (hbody.scan_eq rest))
  refine ⟨l, hl, tokensFrom_eq_map hvisible hend hl, fun value raw width => ⟨?_, ?_⟩, ?_⟩
  · intro heq
    rcases pieces_of_scan hl with ⟨body, rest, value', hsplit, hbody⟩ | hillegal
    · cases heq.symm.trans (hcomplete hsplit hbody)
      exact ⟨body, rest, hsplit, hbody, rfl, by simp⟩
    · rw [heq] at hillegal
      cases hillegal
  · rintro ⟨body, rest, hsplit, hbody, rfl, rfl⟩
    rw [hcomplete hsplit hbody]
    simp
  · rcases pieces_of_scan hl with ⟨body, rest, value, hsplit, hbody⟩ | hillegal
    · exact .inl (congrArg Lexeme.kind (hcomplete hsplit hbody))
    · exact .inr hillegal

/-! ## Raw strings -/

theorem replicate_le_of_append {k : Nat} {a c : UInt8} {s rest : Bytes} (hne : c ≠ a)
    (h : List.replicate k a <+: s ++ c :: rest) : List.replicate k a <+: s := by
  induction s generalizing k with
  | nil =>
    cases k with
    | zero => exact List.nil_prefix
    | succ k => exact absurd (List.cons_prefix_cons.mp h).1.symm hne
  | cons b s ih =>
    cases k with
    | zero => exact List.nil_prefix
    | succ k =>
      obtain ⟨rfl, hrest⟩ := List.cons_prefix_cons.mp h
      exact List.cons_prefix_cons.mpr ⟨rfl, ih hrest⟩

/-- The closing mark is found where it stands: an earlier one that reached into it would have
the quote among its hashes. -/
theorem find?_rawCloser {k : Nat} {s : Bytes} (h : ¬ rawCloser k <:+: s) (rest : Bytes) :
    Bytes.find? (rawCloser k) (s ++ (rawCloser k ++ rest)) = some s.length := by
  induction s with
  | nil =>
    have hfirst : (rawCloser k).isPrefixOf (rawCloser k ++ rest) = true :=
      List.isPrefixOf_iff_prefix.mpr (List.prefix_append _ _)
    exact if_pos hfirst
  | cons b s ih =>
    have hfirst : ¬ (rawCloser k).isPrefixOf (b :: s ++ (rawCloser k ++ rest)) = true := by
      intro hp
      obtain ⟨rfl, hhashes⟩ := List.cons_prefix_cons.mp (List.isPrefixOf_iff_prefix.mp hp)
      have hinside : rawCloser k <+: Ascii.quote :: s :=
        List.cons_prefix_cons.mpr ⟨rfl, replicate_le_of_append (by decide) hhashes⟩
      exact h hinside.isInfix
    have hlater : ¬ rawCloser k <:+: s := fun hs => h (hs.trans (List.suffix_cons b s).isInfix)
    rw [List.cons_append] at hfirst ⊢
    rw [Bytes.find?, if_neg hfirst, ih hlater]
    rfl

/-- The spelling of a raw string. -/
def rawSpelling (k : Nat) (s : Bytes) : Bytes :=
  Bytes.ofAscii 'r' :: (List.replicate k Ascii.hash ++ Ascii.quote :: (s ++ rawCloser k))

variable {k : Nat} {s : Bytes}

theorem rawSpelling_eq (k : Nat) (s : Bytes) :
    rawSpelling k s = (Bytes.ofAscii 'r' :: (List.replicate k Ascii.hash ++ [Ascii.quote])) ++
      (s ++ rawCloser k) := by
  simp [rawSpelling]

theorem rawHashes_spelling (k : Nat) (s rest : Bytes) :
    rawHashes (rawSpelling k s ++ rest) = k := by
  have hsplit : (rawSpelling k s ++ rest).drop 1 =
      List.replicate k Ascii.hash ++ Ascii.quote :: (s ++ rawCloser k ++ rest) := by
    simp [rawSpelling]
  have hhashes : ∀ b ∈ List.replicate k Ascii.hash, (b == Ascii.hash) = true := by
    intro b hb
    rw [List.eq_of_mem_replicate hb]
    rfl
  rw [rawHashes, hsplit, List.takeWhile_append_of_pos hhashes, List.length_append,
    List.length_replicate]
  rfl

theorem length_rawSpelling (k : Nat) (s : Bytes) :
    (rawSpelling k s).length = k + 2 + s.length + (k + 1) := by
  simp [rawSpelling, rawCloser]
  omega

theorem drop_rawSpelling (k : Nat) (s rest : Bytes) :
    (rawSpelling k s ++ rest).drop (k + 2) = s ++ (rawCloser k ++ rest) := by
  rw [rawSpelling_eq, List.append_assoc, List.append_assoc, List.drop_left' (by simp)]

theorem scan_rawSpelling (h : ¬ rawCloser k <:+: s) (rest : Bytes) :
    scan (rawSpelling k s ++ rest) =
      .ok ⟨.stringLit, s, rawSpelling k s, (rawSpelling k s).length⟩ := by
  have hquote : (rawSpelling k s ++ rest).getD (k + 1) 0 = Ascii.quote := by
    rw [rawSpelling, List.cons_append, List.getD_cons_succ, List.append_assoc]
    simp
  have hstart : Start (rawSpelling k s ++ rest) (literalAt .stringLit rawString) := by
    refine .rawString ?_
    rw [Start.startsRawString_eq, rawHashes_spelling, hquote]
    rfl
  have hread : rawString (rawSpelling k s ++ rest) = .value s (rawSpelling k s).length := by
    rw [rawString_eq, rawHashes_spelling, drop_rawSpelling, find?_rawCloser h, length_rawSpelling]
    simp
  rw [hstart.scan_eq, literalAt, hread, Lexeme.ofReading, List.take_left]

/-! ## Behind a text -/

theorem afterAll_append (pos : Pos) (first rest : Bytes) :
    pos.afterAll (first ++ rest) = (pos.afterAll first).afterAll rest :=
  List.foldl_append

theorem afterAll_line (pos : Pos) (text : Bytes) :
    (pos.afterAll text).line = pos.line + text.count Ascii.newline := by
  induction text generalizing pos with
  | nil => rfl
  | cons b text ih =>
    refine (ih (pos.after b)).trans ?_
    rw [Pos.after, List.count_cons]
    split
    · rename_i hb
      rw [hb, beq_self_eq_true, if_pos rfl, Nat.add_assoc, Nat.add_comm 1]
    · rename_i hb
      rw [if_neg (by simpa using hb)]
      rfl

theorem afterAll_column (pos : Pos) (h : Ascii.newline ∉ text) :
    (pos.afterAll text).column = pos.column + text.length := by
  induction text generalizing pos with
  | nil => rfl
  | cons b text ih =>
    obtain ⟨hb, hrest⟩ := not_or.mp (fun hm => h (List.mem_cons.mpr hm))
    refine (ih (pos.after b) hrest).trans ?_
    rw [Pos.after, if_neg (Ne.symm hb), List.length_cons, Nat.add_assoc, Nat.add_comm 1]

theorem Cursor.advance_eq {source : Bytes} {c : Cursor} (h : text <+: ahead source c) :
    advance source text.length c = ⟨c.offset + text.length, c.pos.afterAll text⟩ := by
  induction text generalizing c with
  | nil => rfl
  | cons b text ih =>
    obtain ⟨rest, hrest⟩ := h
    have hbyte : byte source c = b := by
      rw [byte_eq, ← hrest]
      rfl
    have hnext : text <+: ahead source (next source c) := by
      rw [next_eq_advance, ahead_advance, ← hrest]
      exact List.prefix_append text rest
    refine (ih hnext).trans ?_
    rw [next, hbyte, List.length_cons, Nat.add_assoc, Nat.add_comm 1]
    rfl

theorem not_mem_newline_hashes (k : Nat) : Ascii.newline ∉ List.replicate k Ascii.hash := by
  intro h
  exact absurd (List.eq_of_mem_replicate h) (by decide)

theorem not_mem_newline_rawCloser (k : Nat) : Ascii.newline ∉ rawCloser k := by
  intro h
  rcases List.mem_cons.mp h with h | h
  · exact absurd h (by decide)
  · exact not_mem_newline_hashes k h

theorem not_mem_newline_rawOpener (k : Nat) :
    Ascii.newline ∉ Bytes.ofAscii 'r' :: (List.replicate k Ascii.hash ++ [Ascii.quote]) := by
  intro h
  rcases List.mem_cons.mp h with h | h
  · exact absurd h (by decide)
  rcases List.mem_append.mp h with h | h
  · exact not_mem_newline_hashes k h
  · exact absurd (List.mem_singleton.mp h) (by decide)

theorem afterAll_rawSpelling_line (pos : Pos) (k : Nat) (s : Bytes) :
    (pos.afterAll (rawSpelling k s)).line = pos.line + s.count Ascii.newline := by
  rw [afterAll_line, rawSpelling_eq, List.count_append, List.count_append,
    List.count_eq_zero.mpr (not_mem_newline_rawOpener k),
    List.count_eq_zero.mpr (not_mem_newline_rawCloser k), Nat.zero_add, Nat.add_zero]

theorem afterAll_rawSpelling_column (pos : Pos) (k : Nat) (h : Ascii.newline ∉ s) :
    (pos.afterAll (rawSpelling k s)).column = pos.column + (rawSpelling k s).length := by
  refine afterAll_column pos ?_
  rw [rawSpelling_eq, List.mem_append, List.mem_append]
  rintro (hopen | hs | hclose)
  · exact not_mem_newline_rawOpener k hopen
  · exact h hs
  · exact not_mem_newline_rawCloser k hclose

theorem afterAll_rawSpelling_column_last (pos : Pos) (k : Nat) (above : Bytes) {last : Bytes}
    (h : Ascii.newline ∉ last) :
    (pos.afterAll (rawSpelling k (above ++ Ascii.newline :: last))).column =
      1 + last.length + (k + 1) := by
  have htail : Ascii.newline ∉ last ++ rawCloser k := by
    rw [List.mem_append]
    rintro (hlast | hclose)
    · exact h hlast
    · exact not_mem_newline_rawCloser k hclose
  have hsplit : rawSpelling k (above ++ Ascii.newline :: last) =
      (Bytes.ofAscii 'r' :: (List.replicate k Ascii.hash ++ Ascii.quote :: above)) ++
        Ascii.newline :: (last ++ rawCloser k) := by
    simp [rawSpelling]
  rw [hsplit, afterAll_append]
  refine (afterAll_column _ htail).trans ?_
  rw [List.length_append, rawCloser, List.length_cons, List.length_replicate, Pos.after, if_pos rfl]
  exact (Nat.add_assoc ..).symm

/-- A raw string stands for what stands inside it, byte for byte, and reading goes on behind
its closing mark, as many lines further down as it has newlines. -/
theorem raw_string_verbatim (k : Nat) (s rest : Bytes) (h : ¬ rawCloser k <:+: s) :
    (∀ pos, tokensFrom 0 (rawSpelling k s ++ rest) pos =
      (tokensFrom 0 rest (pos.afterAll (rawSpelling k s))).map
        (⟨.stringLit, s, rawSpelling k s, pos⟩ :: ·)) ∧
    ∀ source c, Cursor.ahead source c = rawSpelling k s ++ rest →
      ∃ stop, Cursor.nextToken source c = .ok (⟨.stringLit, s, rawSpelling k s, c.pos⟩, stop) ∧
        Cursor.ahead source stop = rest ∧ stop.offset = c.offset + (rawSpelling k s).length ∧
        stop.pos.line = c.pos.line + s.count Ascii.newline ∧
        (Ascii.newline ∉ s → stop.pos.column = c.pos.column + (rawSpelling k s).length) ∧
        ∀ above last, s = above ++ Ascii.newline :: last → Ascii.newline ∉ last →
          stop.pos.column = 1 + last.length + (k + 1) := by
  have hscan := scan_rawSpelling h rest
  have hvisible : triviaWidth (rawSpelling k s ++ rest) = 0 :=
    visible_of_not_layout (by decide) (by decide) _
  constructor
  · intro pos
    have hend : ¬ AtEnd (rawSpelling k s ++ rest) := fun hend => absurd (hend _ rfl) (by decide)
    rw [tokensFrom_eq_map hvisible hend hscan, tokensFrom_skip (by simp), List.drop_left,
      List.take_left]
    rfl
  · intro source c hahead
    have hbyte : Cursor.byte source c = Bytes.ofAscii 'r' := by
      rw [Cursor.byte_eq, hahead]
      rfl
    have hskip : Cursor.skipTrivia source c = c := by
      rw [Cursor.skipTrivia_eq, hahead, if_pos hvisible]
    have hstep : Cursor.nextToken source c =
        Cursor.stepOf source c (scan (rawSpelling k s ++ rest)) := by
      rw [Cursor.nextToken, hskip, Cursor.tokenAt_eq (by rw [hbyte]; decide), hahead]
    have hstop := Cursor.advance_eq (hahead ▸ List.prefix_append (rawSpelling k s) rest)
    rw [hscan, Cursor.stepOf, hstop] at hstep
    refine ⟨_, hstep, ?_, rfl, afterAll_rawSpelling_line c.pos k s,
      afterAll_rawSpelling_column c.pos k, ?_⟩
    · rw [← hstop, Cursor.ahead_advance, hahead, List.drop_left]
    · rintro above last rfl hlast
      exact afterAll_rawSpelling_column_last c.pos k above hlast

/-- Inside is a quote with all but one of the hashes, twice, the second time at the end. -/
theorem raw_string_verbatim_overlap :
    ¬ rawCloser 2 <:+: [34, 35, 0, 10, 92, 34, 35] ∧
      ∀ pos, tokensFrom 0 (rawSpelling 2 [34, 35, 0, 10, 92, 34, 35] ++ [35]) pos =
        (tokensFrom 0 [35] ⟨pos.line + 1, 7⟩).map
          (⟨.stringLit, [34, 35, 0, 10, 92, 34, 35],
            [114, 35, 35, 34, 34, 35, 0, 10, 92, 34, 35, 34, 35, 35], pos⟩ :: ·) :=
  ⟨by decide, (raw_string_verbatim 2 _ _ (by decide)).1⟩

end RustLua.Token
