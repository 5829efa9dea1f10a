import RustLua.Proofs.Token.Relexing

/-! # Spellings of integers

A number has many spellings: in four bases, with zeros in front, with underscores, with the
name of a type behind it. Each is read as one token, wherever what follows cannot continue
a number. -/
namespace RustLua.Token

/-! ## Spellings -/

/-- The byte is a digit of this value. -/
def IsDigit (k : Nat) (b : UInt8) : Prop :=
  b = Bytes.ofAscii k.digitChar ∨ b = Bytes.ofAscii k.digitChar.toUpper

/-- A number in a base: digits, zeros in front if one likes, and underscores anywhere behind
the first digit. -/
inductive Numeral (base : Nat) : Nat → Bytes → Prop
  | digit {k : Nat} {b : UInt8} (hk : k < base) (hb : IsDigit k b) : Numeral base k [b]
  | behind {n k : Nat} {text : Bytes} {b : UInt8} (h : Numeral base n text) (hk : k < base)
      (hb : IsDigit k b) : Numeral base (n * base + k) (text ++ [b])
  | underscore {n : Nat} {text : Bytes} (h : Numeral base n text) :
      Numeral base n (text ++ [Ascii.underscore])

/-- The types of integers, and none. -/
def integerTypes : List Bytes :=
  ["", "i8", "i16", "i32", "i64", "i128", "isize", "u8", "u16", "u32", "u64", "u128", "usize"].map
    Bytes.ofString

/-- The bases that have a mark. -/
def baseMarks : List (Nat × UInt8) :=
  [(2, Bytes.ofAscii 'b'), (8, Bytes.ofAscii 'o'), (16, Bytes.ofAscii 'x')]

/-- The spellings of a number: decimal, or behind a base mark and underscores. -/
inductive SpellsInteger : Nat → Bytes → Prop
  | decimal {n : Nat} {text type : Bytes} (h : Numeral 10 n text) (ht : type ∈ integerTypes) :
      SpellsInteger n (text ++ type)
  | based {n base : Nat} {text type : Bytes} {mark : UInt8} (hm : (base, mark) ∈ baseMarks)
      (k : Nat) (h : Numeral base n text) (ht : type ∈ integerTypes) :
      SpellsInteger n
        (Bytes.ofAscii '0' :: mark :: (List.replicate k Ascii.underscore ++ text ++ type))

section
variable {base n k : Nat} {b : UInt8} {text type rest : Bytes}

theorem IsDigit.isHexDigit (h : IsDigit k b) (hk : k < 16) : Ascii.isHexDigit b = true := by
  have hall : ∀ k < 16, Ascii.isHexDigit (Bytes.ofAscii k.digitChar) = true ∧
      Ascii.isHexDigit (Bytes.ofAscii k.digitChar.toUpper) = true := by decide
  rcases h with rfl | rfl
  · exact (hall k hk).1
  · exact (hall k hk).2

theorem IsDigit.isDigit (h : IsDigit k b) (hk : k < 10) : Ascii.isDigit b = true := by
  have hall : ∀ k < 10, Ascii.isDigit (Bytes.ofAscii k.digitChar) = true ∧
      Ascii.isDigit (Bytes.ofAscii k.digitChar.toUpper) = true := by decide
  rcases h with rfl | rfl
  · exact (hall k hk).1
  · exact (hall k hk).2

theorem IsDigit.digitValue? (h : IsDigit k b) (hk : k < base) (hb : base ≤ 16) :
    Bytes.digitValue? base b = some k := by
  have hall : ∀ k < 16, Bytes.digitValue? 16 (Bytes.ofAscii k.digitChar) = some k ∧
      Bytes.digitValue? 16 (Bytes.ofAscii k.digitChar.toUpper) = some k := by decide
  have h16 : Bytes.digitValue? 16 b = some k := by
    rcases h with rfl | rfl
    · exact (hall k (by omega)).1
    · exact (hall k (by omega)).2
  simp only [Bytes.digitValue?, Option.filter_eq_some_iff, decide_eq_true_eq] at h16 ⊢
  exact ⟨h16.1, hk⟩

theorem Numeral.forall_mem {P : UInt8 → Prop} (h : Numeral base n text)
    (hd : ∀ k b, k < base → IsDigit k b → P b) (hu : P Ascii.underscore) : ∀ b ∈ text, P b := by
  induction h with
  | digit hk hb => exact List.forall_mem_singleton.mpr (hd _ _ hk hb)
  | behind _ hk hb ih =>
    exact List.forall_mem_append.mpr ⟨ih, List.forall_mem_singleton.mpr (hd _ _ hk hb)⟩
  | underscore _ ih => exact List.forall_mem_append.mpr ⟨ih, List.forall_mem_singleton.mpr hu⟩

theorem Numeral.isHexMark (h : Numeral base n text) (hb : base ≤ 16) :
    ∀ b ∈ text, isHexMark b = true := by
  refine h.forall_mem (fun k b hk hd => ?_) (by decide)
  rw [Token.isHexMark, hd.isHexDigit (by omega)]
  rfl

theorem Numeral.isDigitMark (h : Numeral 10 n text) : ∀ b ∈ text, isDigitMark b = true := by
  refine h.forall_mem (fun k b hk hd => ?_) (by decide)
  rw [Token.isDigitMark, hd.isDigit hk]
  rfl

theorem Numeral.head (h : Numeral base n text) :
    ∃ k b rest, text = b :: rest ∧ k < base ∧ IsDigit k b := by
  induction h with
  | digit hk hb => exact ⟨_, _, [], rfl, hk, hb⟩
  | behind _ _ _ ih | underscore _ ih =>
    obtain ⟨k, b, rest, rfl, hk, hb⟩ := ih
    exact ⟨k, b, _, rfl, hk, hb⟩

/-- The digits of a numeral are worth its number. -/
theorem Numeral.digitsValue? (h : Numeral base n text) (hb : base ≤ 16) :
    Bytes.digitsValue? base (text.filter (· != Ascii.underscore)) = some n := by
  have hkept {k : Nat} {b : UInt8} (hk : k < base) (hd : IsDigit k b) :
      [b].filter (· != Ascii.underscore) = [b] := by
    refine List.filter_cons_of_pos (bne_iff_ne.mpr ?_)
    rintro rfl
    have hhex := hd.isHexDigit (by omega)
    cases hhex
  suffices text.filter (· != Ascii.underscore) ≠ [] ∧
      (text.filter (· != Ascii.underscore)).foldlM
        (fun acc b => (Bytes.digitValue? base b).map (acc * base + ·)) 0 = some n by
    rw [Bytes.digitsValue?, if_neg (by simpa using this.1), this.2]
  induction h with
  | digit hk hd =>
    rw [hkept hk hd]
    simp [hd.digitValue? hk hb]
  | behind _ hk hd ih =>
    rw [List.filter_append, hkept hk hd, List.foldlM_append, ih.2]
    simp [hd.digitValue? hk hb]
  | underscore _ ih => simpa using ih

/-- Every number has a spelling. -/
theorem numeral_decimal (n : Nat) : Numeral 10 n (Bytes.decimal n) := by
  induction n using Nat.strongRecOn with
  | ind n ih =>
    rw [Bytes.decimal, Nat.toDigits_eq_if (by decide)]
    split
    · exact .digit ‹_› (.inl rfl)
    · have hmore := (ih (n / 10) (by omega)).behind (Nat.mod_lt n (by decide)) (.inl rfl)
      rw [Nat.div_add_mod'] at hmore
      simpa [Bytes.decimal] using hmore

/-! ## Numbers -/

/-- What cannot continue a number: no letter, digit or underscore, and no point with a digit
behind it. -/
def EndsNumber (rest : Bytes) : Prop :=
  Ascii.isWord (rest.headD 0) = false ∧ ¬ StartsFraction rest

theorem integerTypes_cases (h : type ∈ integerTypes) :
    type = [] ∨ ∃ b inner, type = b :: inner ∧ (b = Bytes.ofAscii 'i' ∨ b = Bytes.ofAscii 'u') ∧
      ∀ c ∈ type, Ascii.isWord c = true := by
  have hall : ∀ type ∈ integerTypes, type = [] ∨
      (type.headD 0 = Bytes.ofAscii 'i' ∨ type.headD 0 = Bytes.ofAscii 'u') ∧
        ∀ c ∈ type, Ascii.isWord c = true := by
    decide +kernel
  cases type with
  | nil => exact .inl rfl
  | cons b inner =>
    obtain ⟨hb, hword⟩ := (hall _ h).resolve_left nofun
    exact .inr ⟨b, inner, rfl, hb, hword⟩

/-- What can stand behind the digits starts with an `i`, a `u` or no part of a word. -/
theorem headD_type {q : UInt8 → Bool} (ht : type ∈ integerTypes) (hr : EndsNumber rest)
    (hi : q (Bytes.ofAscii 'i') = false) (hu : q (Bytes.ofAscii 'u') = false)
    (hq : ∀ b, q b = true → Ascii.isWord b = true) : q ((type ++ rest).headD 0) = false := by
  rcases integerTypes_cases ht with rfl | ⟨b, inner, rfl, rfl | rfl, -⟩
  · refine Bool.eq_false_iff.mpr fun h => ?_
    rw [List.nil_append] at h
    exact absurd (hq _ h) (Bool.eq_false_iff.mp hr.1)
  · exact hi
  · exact hu

theorem takeWhile_type {q : UInt8 → Bool} (ht : type ∈ integerTypes) (hr : EndsNumber rest)
    (hi : q (Bytes.ofAscii 'i') = false) (hu : q (Bytes.ofAscii 'u') = false)
    (hq : ∀ b, q b = true → Ascii.isWord b = true) : (type ++ rest).takeWhile q = [] :=
  takeWhile_eq_nil (Bool.not_eq_true _ ▸ headD_type ht hr hi hu hq)

theorem suffix_type (ht : type ∈ integerTypes) (hr : EndsNumber rest) :
    suffix (type ++ rest) = type := by
  have hstop : rest.takeWhile Ascii.isWord = [] := takeWhile_eq_nil (Bool.not_eq_true _ ▸ hr.1)
  rcases integerTypes_cases ht with rfl | ⟨b, inner, rfl, hb, hword⟩
  · have hletter : ¬ Ascii.isLetter (rest.headD 0) = true := by
      intro h
      have hfalse := hr.1
      rw [Ascii.isWord, h] at hfalse
      cases hfalse
    rw [List.nil_append, suffix, if_neg hletter]
  · have hletter : Ascii.isLetter b = true := by rcases hb with rfl | rfl <;> rfl
    rw [suffix, List.cons_append, List.headD_cons, if_pos hletter, ← List.cons_append,
      List.takeWhile_append_of_pos hword, hstop, List.append_nil]

theorem isWord_of_isDigitMark {b : UInt8} (h : isDigitMark b = true) : Ascii.isWord b = true := by
  simp only [isDigitMark, Bool.or_eq_true, beq_iff_eq] at h
  rcases h with h | rfl
  · rw [Ascii.isWord, h, Bool.or_true]
  · rfl

theorem isWord_of_isHexMark (h : isHexMark b = true) : Ascii.isWord b = true := by
  simp only [isHexMark, Ascii.isHexDigit, Ascii.isWord, Ascii.isLetter, Bool.or_eq_true,
    Bool.and_eq_true, decide_eq_true_eq, beq_iff_eq, UInt8.le_iff_toNat_le] at h ⊢
  rcases h with ((h | h) | h) | h
  · exact .inr h
  · exact .inl (.inl (.inl ⟨h.1, Nat.le_trans h.2 (by decide)⟩))
  · exact .inl (.inl (.inr ⟨h.1, Nat.le_trans h.2 (by decide)⟩))
  · exact .inl (.inr h)

theorem fractionPart_type (ht : type ∈ integerTypes) (hr : EndsNumber rest) :
    fractionPart (type ++ rest) = (false, type.length) := by
  have hfraction : fractionWidth (type ++ rest) = 0 := by
    rw [fractionWidth_eq, if_neg]
    rcases integerTypes_cases ht with rfl | ⟨b, inner, rfl, hb, -⟩
    · exact hr.2
    · rintro ⟨hdot, -⟩
      rw [show b = Ascii.dot from hdot] at hb
      exact absurd hb (by decide)
  have hexponent : exponentWidth (type ++ rest) = 0 := by
    have hmark := headD_type (q := fun b => b == Bytes.ofAscii 'e' || b == Bytes.ofAscii 'E') ht hr
      (by decide) (by decide) (by simp; decide)
    rw [Bool.or_eq_false_iff, beq_eq_false_iff_ne, beq_eq_false_iff_ne] at hmark
    rw [exponentWidth_eq, if_neg fun h => h.1.elim hmark.1 hmark.2]
  have hfloat : type.headD 0 ≠ Bytes.ofAscii 'f' := by
    rcases integerTypes_cases ht with rfl | ⟨b, inner, rfl, rfl | rfl, -⟩
    · decide
    · exact show Bytes.ofAscii 'i' ≠ _ by decide
    · exact show Bytes.ofAscii 'u' ≠ _ by decide
  simp only [fractionPart, exponentPart, hfraction, List.drop_zero, hexponent, suffix_type ht hr,
    hfloat, Nat.lt_irrefl, or_self, decide_false, Bool.or_self, Nat.zero_add]

def isBaseMark (b : UInt8) : Bool :=
  b == Bytes.ofAscii 'x' || b == Bytes.ofAscii 'o' || b == Bytes.ofAscii 'b'

theorem startsBased_eq (text : Bytes) : startsBased text =
    (text.headD 0 == Bytes.ofAscii '0' && isBaseMark (text.getD 1 0)) := rfl

theorem isWord_of_isBaseMark (h : isBaseMark b = true) : Ascii.isWord b = true := by
  simp only [isBaseMark, Bool.or_eq_true, beq_iff_eq] at h
  rcases h with (rfl | rfl) | rfl <;> rfl

theorem not_isBaseMark_of_isDigitMark (h : isDigitMark b = true) : isBaseMark b = false := by
  refine Bool.eq_false_iff.mpr fun hb => ?_
  simp only [isBaseMark, Bool.or_eq_true, beq_iff_eq] at hb
  rcases hb with (rfl | rfl) | rfl <;> cases h

theorem number_decimal (h : Numeral 10 n text) (ht : type ∈ integerTypes) (hr : EndsNumber rest) :
    number (text ++ (type ++ rest)) = (.intLit, text.length + type.length) := by
  have hmark : isBaseMark ((text ++ (type ++ rest)).getD 1 0) = false := by
    obtain ⟨_, b, inner, rfl, -⟩ := h.head
    cases inner with
    | nil =>
      rw [getD_one_singleton]
      exact headD_type ht hr (by decide) (by decide) fun b => isWord_of_isBaseMark
    | cons c inner => exact not_isBaseMark_of_isDigitMark (h.isDigitMark c (by simp))
  have hbased : startsBased (text ++ (type ++ rest)) = false := by
    rw [startsBased_eq, hmark, Bool.and_false]
  have hdigits : digitsWidth (text ++ (type ++ rest)) = text.length := by
    rw [digitsWidth, List.takeWhile_append_of_pos h.isDigitMark,
      takeWhile_type ht hr (by decide) (by decide) fun b => isWord_of_isDigitMark, List.append_nil]
  rw [number_of_not_based hbased, hdigits, List.drop_left, fractionPart_type ht hr]
  rfl

theorem number_based {mark : UInt8} (hm : (base, mark) ∈ baseMarks) (k : Nat)
    (h : Numeral base n text) (ht : type ∈ integerTypes) (hr : EndsNumber rest) :
    number (Bytes.ofAscii '0' :: mark ::
        ((List.replicate k Ascii.underscore ++ text) ++ (type ++ rest))) =
      (.intLit, 2 + ((List.replicate k Ascii.underscore ++ text).length + type.length)) := by
  have hall : ∀ p ∈ baseMarks, p.1 ≤ 16 ∧ isBaseMark p.2 = true := by decide
  obtain ⟨h16, hmark⟩ := hall _ hm
  have hdigits : ∀ b ∈ List.replicate k Ascii.underscore ++ text, isHexMark b = true := by
    refine List.forall_mem_append.mpr ⟨fun b hb => ?_, h.isHexMark h16⟩
    rw [List.eq_of_mem_replicate hb]
    rfl
  have hrun : ((List.replicate k Ascii.underscore ++ text) ++ (type ++ rest)).takeWhile isHexMark =
      List.replicate k Ascii.underscore ++ text := by
    rw [List.takeWhile_append_of_pos hdigits, takeWhile_type ht hr (by decide) (by decide)
      fun b => isWord_of_isHexMark, List.append_nil]
  have hstart : startsBased (Bytes.ofAscii '0' :: mark ::
      ((List.replicate k Ascii.underscore ++ text) ++ (type ++ rest))) = true := hmark
  rw [number_of_based hstart, List.drop_succ_cons, List.drop_succ_cons, List.drop_zero, basedWidth,
    hrun, List.drop_left, suffix_type ht hr]

/-- A spelling is a number of its whole width. -/
theorem SpellsInteger.number_eq (h : SpellsInteger n text) (hr : EndsNumber rest) :
    number (text ++ rest) = (.intLit, text.length) := by
  cases h with
  | decimal h ht =>
    rw [List.append_assoc, number_decimal h ht hr, List.length_append]
  | based hm k h ht =>
    have hsplit := number_based hm k h ht hr
    simp only [List.cons_append, List.append_assoc] at hsplit ⊢
    rw [hsplit]
    simp
    omega

theorem SpellsInteger.head (h : SpellsInteger n text) :
    ∃ b inner, text = b :: inner ∧ Ascii.isDigit b = true := by
  cases h with
  | decimal h =>
    obtain ⟨k, b, inner, rfl, hk, hb⟩ := h.head
    exact ⟨b, _, rfl, hb.isDigit hk⟩
  | based => exact ⟨_, _, rfl, rfl⟩

theorem endsNumber_nil : EndsNumber [] := ⟨by decide, by decide⟩

/-- A spelling is one token by itself. -/
theorem SpellsInteger.stable (h : SpellsInteger n text) :
    Lexeme.Stable ⟨.intLit, text, text, text.length⟩ := by
  have hnumber := h.number_eq endsNumber_nil
  rw [List.append_nil] at hnumber
  obtain ⟨b, inner, rfl, hb⟩ := h.head
  have hne {c : UInt8} (hc : Ascii.isDigit c = false) : b ≠ c := by
    rintro rfl
    rw [hb] at hc
    cases hc
  have hvisible : triviaWidth (b :: inner) = 0 := by
    refine triviaWidth_cons_eq_zero.mpr ⟨?_, fun hs => hne (by decide) hs.1⟩
    simp only [Ascii.isLayout, Bool.or_eq_true, beq_iff_eq]
    rintro (((h | h) | h) | h) <;> exact hne (by decide) h
  refine ⟨Kind.noConfusion, hvisible, ?_, ?_⟩
  · exact fun hend => hne (by decide) (hend b rfl)
  · have hstart : Start (b :: inner) fun text => .ok (numberLexeme text) := .number hb
    rw [hstart.scan_eq, numberLexeme, hnumber]
    simp

/-! ## Tokens -/

/-- A spelling with or without a minus sign. -/
def signed (negative : Bool) (text : Bytes) : Bytes :=
  if negative then Ascii.minus :: text else text

/-- Its tokens. -/
def integerTokens (negative : Bool) (text : Bytes) (pos : Pos) : List Token :=
  if negative then
    [⟨.minus, [Ascii.minus], [Ascii.minus], pos⟩, ⟨.intLit, text, text, pos.after Ascii.minus⟩]
  else [⟨.intLit, text, text, pos⟩]

theorem stable_minus : Lexeme.Stable ⟨.minus, [Ascii.minus], [Ascii.minus], 1⟩ :=
  ⟨by decide, by decide, fun h => absurd (h _ rfl) (by decide), rfl⟩

/-- No punctuation has a digit in its spelling. -/
theorem not_clings_minus (hb : Ascii.isDigit b = true) :
    ¬ Clings .minus [Ascii.minus] [Ascii.minus] (b :: rest) := by
  have hdigit : ∀ k ∈ Kind.punctuation, ∀ c ∈ Bytes.ofString k.name, Ascii.isDigit c = false := by
    decide +kernel
  rintro (⟨hk, -⟩ | ⟨hk, -⟩ | hk | ⟨hk, -⟩ | ⟨-, hm, hl, hp⟩)
  · exact absurd hk (by decide)
  · exact absurd hk (by decide)
  · exact absurd hk (by decide)
  · exact absurd hk (by decide)
  · obtain ⟨more, hmore⟩ := List.prefix_of_prefix_length_le
      (List.prefix_append [Ascii.minus, b] rest) hp hl
    have hno := hdigit _ hm b (by rw [← hmore]; simp)
    rw [hb] at hno
    cases hno

/-- The tokens of a spelling, with or without a minus sign, in front of others. -/
theorem SpellsInteger.tokens (h : SpellsInteger n text) (negative : Bool) (hr : EndsNumber rest)
    {pos : Pos} {more : List Token}
    (hmore : tokensFrom 0 rest (pos.afterAll (signed negative text)) = .ok more) :
    tokensFrom 0 (signed negative text ++ rest) pos =
      .ok (integerTokens negative text pos ++ more) := by
  obtain ⟨b, inner, hcons, hb⟩ := h.head
  have hfree : ¬ Clings .intLit text text rest := by
    rintro (⟨hk, -⟩ | ⟨hk, -⟩ | hk | ⟨-, hn⟩ | ⟨hk, -⟩)
    · exact absurd hk (by decide)
    · exact absurd hk (by decide)
    · cases hk
    · exact hn (by rw [h.number_eq hr])
    · exact absurd hk (by decide)
  have hcomment : ¬ OpensComment text rest := by
    rintro ⟨hslash, -⟩
    cases hcons.symm.trans hslash
    cases hb
  cases negative with
  | false => exact h.stable.tokensFrom_append hfree hcomment hmore
  | true =>
    have hsign : ¬ Clings .minus [Ascii.minus] [Ascii.minus] (text ++ rest) :=
      hcons ▸ not_clings_minus hb
    exact stable_minus.tokensFrom_append hsign (fun hc => absurd hc.1 (by decide))
      (h.stable.tokensFrom_append hfree hcomment hmore)

theorem SpellsInteger.tokenize_eq (h : SpellsInteger n text) (negative : Bool) :
    ∃ pos, tokenize (signed negative text) =
      .ok (integerTokens negative text Pos.start ++ [endToken pos]) := by
  have hmore : tokensFrom 0 [] (Pos.start.afterAll (signed negative text)) = .ok [endToken _] := rfl
  have htokens := h.tokens negative endsNumber_nil hmore
  have hfirst : (signed negative text).headD 0 ≠ Ascii.hash := by
    obtain ⟨b, inner, rfl, hb⟩ := h.head
    cases negative with
    | true => exact show Ascii.minus ≠ Ascii.hash by decide
    | false =>
      rintro rfl
      cases hb
  rw [List.append_nil] at htokens
  exact ⟨_, by rw [tokenize, interpreterLineWidth_eq_zero hfirst, htokens]⟩

end
end RustLua.Token
