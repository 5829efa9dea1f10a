import RustLua.Proofs.Token.Literals

/-! # Numbers in front of a blank

A word, a number or an operator could go on behind its last byte; the end or a blank stops
it (`Apart`). A number is read part by part, and each part is read again in front of a blank
as it was read before, because the next part takes what it left. -/
namespace RustLua.Token

variable {text taken rest rest' : Bytes} {p : UInt8 → Bool}

/-! ## What stands apart -/

/-- Nothing, or a blank in front of what follows. -/
def Apart (rest : Bytes) : Prop := ∀ b ∈ rest.head?, b = Ascii.blank

theorem apart_nil : Apart [] := by simp [Apart]

theorem Apart.headD_eq (h : Apart rest) : rest.headD 0 = 0 ∨ rest.headD 0 = Ascii.blank := by
  cases rest with
  | nil => exact .inl rfl
  | cons b rest => exact .inr (h b rfl)

/-- A byte that is neither NUL nor a blank does not come first in it. -/
theorem Apart.headD_ne (h : Apart rest) {b : UInt8} (h0 : b ≠ 0) (hb : b ≠ Ascii.blank) :
    rest.headD 0 ≠ b := by
  rcases h.headD_eq with he | he
  · rw [he]; exact h0.symm
  · rw [he]; exact hb.symm

theorem Apart.headD_class (h : Apart rest) (h0 : p 0 = false) (hb : p Ascii.blank = false) :
    p (rest.headD 0) = false := by
  rcases h.headD_eq with he | he
  · rw [he]; exact h0
  · rw [he]; exact hb

theorem takeWhile_eq_nil (h : ¬ p (rest.headD 0) = true) : rest.takeWhile p = [] := by
  cases rest with
  | nil => rfl
  | cons b rest => exact List.takeWhile_cons_of_neg h

theorem Apart.takeWhile_eq_nil (h : Apart rest) (h0 : p 0 = false) (hb : p Ascii.blank = false) :
    rest.takeWhile p = [] :=
  Token.takeWhile_eq_nil (Bool.not_eq_true _ ▸ h.headD_class h0 hb)

theorem headD_eq_getD (text : Bytes) : text.headD 0 = text.getD 0 0 := by
  cases text <;> rfl

theorem getD_append_length (taken rest : Bytes) :
    (taken ++ rest).getD taken.length 0 = rest.headD 0 := by
  rw [headD_eq_getD, List.getD_eq_getElem?_getD, List.getElem?_append_right (Nat.le_refl _),
    Nat.sub_self, ← List.getD_eq_getElem?_getD]

theorem getD_one_singleton (b : UInt8) (rest : Bytes) : ([b] ++ rest).getD 1 0 = rest.headD 0 :=
  getD_append_length [b] rest

/-! ## Numbers -/

theorem digitsWidth_append (h : digitsWidth (taken ++ rest) ≤ taken.length) (hr : Apart rest') :
    digitsWidth (taken ++ rest') = digitsWidth (taken ++ rest) :=
  congrArg List.length (takeWhile_append_of_le h (hr.takeWhile_eq_nil (by decide) (by decide)))

theorem suffix_append (h : (suffix (taken ++ rest)).length = taken.length) (hr : Apart rest') :
    suffix (taken ++ rest') = suffix (taken ++ rest) := by
  cases taken with
  | nil =>
    have hstop : Ascii.isLetter (rest'.headD 0) = false :=
      hr.headD_class (by decide) (by decide)
    rw [List.length_eq_zero_iff.mp h, List.nil_append, suffix, hstop]
    rfl
  | cons b inner =>
    unfold suffix at h ⊢
    rw [List.cons_append, List.headD_cons] at h ⊢
    rw [List.cons_append, List.headD_cons]
    split_ifs at h ⊢
    exact @takeWhile_append_of_le (b :: inner) rest _ h.le _
      (hr.takeWhile_eq_nil (by decide) (by decide))

/-- A beginning of the right length is what was taken. -/
theorem eq_taken {first : Bytes} (hp : first <+: taken ++ rest) (hl : first.length = taken.length) :
    first = taken :=
  (List.prefix_of_prefix_length_le hp (List.prefix_append _ _) hl.le).eq_of_length hl

theorem isWord_of_suffix (h : (suffix (taken ++ rest)).length = taken.length) :
    ∀ b ∈ taken, Ascii.isWord b = true := by
  intro b hb
  unfold suffix at h
  split at h
  · rw [← eq_taken (List.takeWhile_prefix _) h] at hb
    exact List.mem_takeWhile_imp hb
  · rw [List.length_eq_zero_iff.mp h.symm] at hb
    cases hb

/-- An exponent starts here. -/
abbrev StartsExponent (text : Bytes) : Prop :=
  (text.headD 0 = Bytes.ofAscii 'e' ∨ text.headD 0 = Bytes.ofAscii 'E') ∧
    (Ascii.isDigit (text.getD 1 0) ∨
      ((text.getD 1 0 = Ascii.plus ∨ text.getD 1 0 = Ascii.minus) ∧ Ascii.isDigit (text.getD 2 0)))

theorem exponentWidth_eq (text : Bytes) :
    exponentWidth text = if StartsExponent text then 2 + digitsWidth (text.drop 2) else 0 := rfl

theorem digitsWidth_pos (h : Ascii.isDigit (text.headD 0) = true) : 0 < digitsWidth text := by
  cases text with
  | nil => cases h
  | cons b rest =>
    have hb : isDigitMark b = true := by
      rw [isDigitMark, show Ascii.isDigit b = true from h]
      rfl
    rw [digitsWidth, List.takeWhile_cons, if_pos hb]
    exact Nat.succ_pos _

/-- Where no exponent starts, none starts in front of a blank either: what was taken is a
suffix, and holds no sign. -/
theorem not_startsExponent_append (h : ¬ StartsExponent (taken ++ rest))
    (hs : (suffix (taken ++ rest)).length = taken.length) (hr : Apart rest') :
    ¬ StartsExponent (taken ++ rest') := by
  rintro ⟨hhead, hnext⟩
  rcases taken with _ | ⟨a, _ | ⟨b, inner⟩⟩
  · rw [List.nil_append] at hhead
    rcases hhead with hhead | hhead
    · exact hr.headD_ne (by decide) (by decide) hhead
    · exact hr.headD_ne (by decide) (by decide) hhead
  · rw [getD_one_singleton] at hnext
    rcases hnext with hnext | ⟨hnext | hnext, _⟩
    · rw [hr.headD_class (p := Ascii.isDigit) (by decide) (by decide)] at hnext
      cases hnext
    · exact hr.headD_ne (by decide) (by decide) hnext
    · exact hr.headD_ne (by decide) (by decide) hnext
  · rcases hnext with hnext | ⟨hnext, _⟩
    · exact h ⟨hhead, .inl hnext⟩
    · have hword : Ascii.isWord b = true := isWord_of_suffix hs b (by simp)
      rcases hnext with hnext | hnext
      · rw [show b = Ascii.plus from hnext] at hword
        cases hword
      · rw [show b = Ascii.minus from hnext] at hword
        cases hword

theorem exponentWidth_append
    (h : exponentWidth (taken ++ rest) +
      (suffix ((taken ++ rest).drop (exponentWidth (taken ++ rest)))).length = taken.length)
    (hr : Apart rest') : exponentWidth (taken ++ rest') = exponentWidth (taken ++ rest) := by
  by_cases hexp : StartsExponent (taken ++ rest)
  · have hwidth : 2 + digitsWidth ((taken ++ rest).drop 2) ≤ taken.length := by
      rw [exponentWidth_eq, if_pos hexp] at h
      omega
    rcases taken with _ | ⟨a, _ | ⟨b, inner⟩⟩
    · rw [List.length_nil] at hwidth
      omega
    · rw [List.length_singleton] at hwidth
      omega
    have hdigits : digitsWidth (inner ++ rest) ≤ inner.length := by
      simp only [List.cons_append, List.drop_succ_cons, List.drop_zero, List.length_cons] at hwidth
      omega
    have hexp' : StartsExponent (a :: b :: inner ++ rest') := by
      refine ⟨hexp.1, hexp.2.imp id fun ⟨hsign, hdigit⟩ => ⟨hsign, ?_⟩⟩
      -- the digit behind the sign is taken
      have hpos : 0 < inner.length := by
        have hhead : Ascii.isDigit ((inner ++ rest).headD 0) = true := by
          rw [headD_eq_getD]
          exact hdigit
        exact Nat.lt_of_lt_of_le (digitsWidth_pos hhead) hdigits
      have htaken : 2 < (a :: b :: inner).length := by simpa using hpos
      rw [getD_append_congr htaken rest rest']
      exact hdigit
    rw [exponentWidth_eq, exponentWidth_eq, if_pos hexp, if_pos hexp']
    exact congrArg (2 + ·) (digitsWidth_append hdigits hr)
  · rw [exponentWidth_eq, if_neg hexp, List.drop_zero, Nat.zero_add] at h
    rw [exponentWidth_eq, exponentWidth_eq, if_neg hexp,
      if_neg (not_startsExponent_append hexp h hr)]

/-- A fraction starts here. -/
abbrev StartsFraction (text : Bytes) : Prop :=
  text.headD 0 = Ascii.dot ∧ Ascii.isDigit (text.getD 1 0)

theorem fractionWidth_eq (text : Bytes) :
    fractionWidth text = if StartsFraction text then 1 + digitsWidth (text.drop 1) else 0 := rfl

theorem fractionWidth_append (h : fractionWidth (taken ++ rest) ≤ taken.length)
    (hr : Apart rest') : fractionWidth (taken ++ rest') = fractionWidth (taken ++ rest) := by
  rcases taken with _ | ⟨a, _ | ⟨b, inner⟩⟩
  · have hno : ¬ StartsFraction ([] ++ rest') := fun hf =>
      hr.headD_ne (by decide) (by decide) hf.1
    rw [Nat.le_zero.mp h, fractionWidth_eq, if_neg hno]
  · have hno : ¬ StartsFraction ([a] ++ rest) := by
      intro hf
      rw [fractionWidth_eq, if_pos hf] at h
      have hpos : 0 < digitsWidth rest := by
        apply digitsWidth_pos
        rw [← getD_one_singleton a]
        exact hf.2
      exact absurd h (Nat.not_le_of_lt (Nat.lt_add_of_pos_right hpos))
    have hno' : ¬ StartsFraction ([a] ++ rest') := by
      rintro ⟨_, hdigit⟩
      rw [getD_one_singleton, hr.headD_class (p := Ascii.isDigit) (by decide) (by decide)] at hdigit
      cases hdigit
    rw [fractionWidth_eq, fractionWidth_eq, if_neg hno, if_neg hno']
  · by_cases hf : StartsFraction (a :: b :: inner ++ rest)
    · have hdigits : digitsWidth (b :: inner ++ rest) ≤ (b :: inner).length := by
        rw [fractionWidth_eq, if_pos hf] at h
        simp only [List.cons_append, List.drop_succ_cons, List.drop_zero, List.length_cons] at h ⊢
        omega
      rw [fractionWidth_eq, fractionWidth_eq, if_pos hf,
        if_pos (show StartsFraction (a :: b :: inner ++ rest') from hf)]
      exact congrArg (1 + ·) (digitsWidth_append hdigits hr)
    · rw [fractionWidth_eq, fractionWidth_eq, if_neg hf,
        if_neg (show ¬ StartsFraction (a :: b :: inner ++ rest') from hf)]

theorem startsBased_append (h : startsBased (taken ++ rest) = true → 2 ≤ taken.length)
    (hr : Apart rest') : startsBased (taken ++ rest') = startsBased (taken ++ rest) := by
  rcases taken with _ | ⟨a, _ | ⟨b, inner⟩⟩
  · have hno : startsBased ([] ++ rest) = false :=
      Bool.eq_false_iff.mpr fun hb => absurd (h hb) (by simp)
    have hzero : (rest'.headD 0 == Bytes.ofAscii '0') = false :=
      hr.headD_class (p := (· == Bytes.ofAscii '0')) (by decide) (by decide)
    rw [hno, List.nil_append, startsBased, hzero]
    rfl
  · have hno : startsBased ([a] ++ rest) = false :=
      Bool.eq_false_iff.mpr fun hb => absurd (h hb) (by simp)
    have hmark : (rest'.headD 0 == Bytes.ofAscii 'x' || rest'.headD 0 == Bytes.ofAscii 'o' ||
        rest'.headD 0 == Bytes.ofAscii 'b') = false :=
      hr.headD_class (p := fun b => b == Bytes.ofAscii 'x' || b == Bytes.ofAscii 'o' ||
        b == Bytes.ofAscii 'b') (by decide) (by decide)
    rw [hno, startsBased, getD_one_singleton, hmark, Bool.and_false]
  · rfl

def isHexMark (b : UInt8) : Bool := Ascii.isHexDigit b || b == Ascii.underscore

/-- The width of a number behind its base mark. -/
def basedWidth (text : Bytes) : Nat :=
  (text.takeWhile isHexMark).length + (suffix (text.drop (text.takeWhile isHexMark).length)).length

theorem number_of_based (h : startsBased text = true) :
    number text = (.intLit, 2 + basedWidth (text.drop 2)) := by
  rw [number, if_pos h, basedWidth, List.drop_drop, ← Nat.add_assoc]
  rfl

theorem drop_append_taken {k : Nat} (h : k ≤ taken.length) (rest : Bytes) :
    (taken ++ rest).drop k = taken.drop k ++ rest :=
  List.drop_append_of_le_length h

theorem basedWidth_append (h : basedWidth (taken ++ rest) = taken.length) (hr : Apart rest') :
    basedWidth (taken ++ rest') = taken.length := by
  unfold basedWidth at h
  have hle : ((taken ++ rest).takeWhile isHexMark).length ≤ taken.length := by omega
  have hrun : (taken ++ rest').takeWhile isHexMark = (taken ++ rest).takeWhile isHexMark :=
    takeWhile_append_of_le hle (hr.takeWhile_eq_nil (by decide) (by decide))
  rw [drop_append_taken hle] at h
  have hending := Nat.eq_sub_of_add_eq' h
  rw [← List.length_drop] at hending
  have hsuffix := suffix_append hending hr
  rw [basedWidth, hrun, drop_append_taken hle, hsuffix]
  exact h

/-- What stands behind the fraction of a number: does it make the number a float, and how
wide is it? -/
def exponentPart (text : Bytes) : Bool × Nat :=
  let exponent := exponentWidth text
  let ending := suffix (text.drop exponent)
  (decide (0 < exponent ∨ ending.headD 0 = Bytes.ofAscii 'f'), exponent + ending.length)

/-- What stands behind the whole part of a number. -/
def fractionPart (text : Bytes) : Bool × Nat :=
  let fraction := fractionWidth text
  let more := exponentPart (text.drop fraction)
  (decide (0 < fraction) || more.1, fraction + more.2)

theorem number_of_not_based (h : startsBased text = false) :
    number text =
      (if (fractionPart (text.drop (digitsWidth text))).1 then .floatLit else .intLit,
        digitsWidth text + (fractionPart (text.drop (digitsWidth text))).2) := by
  rw [number, if_neg (Bool.eq_false_iff.mp h)]
  simp only [fractionPart, exponentPart, List.drop_drop, Bool.or_eq_true, decide_eq_true_eq,
    Nat.add_assoc]

theorem exponentPart_append (h : (exponentPart (taken ++ rest)).2 = taken.length)
    (hr : Apart rest') : exponentPart (taken ++ rest') = exponentPart (taken ++ rest) := by
  unfold exponentPart at h ⊢
  have hle : exponentWidth (taken ++ rest) ≤ taken.length := by
    simp only at h
    omega
  have hwidth := exponentWidth_append h hr
  have hsuffix : suffix ((taken ++ rest').drop (exponentWidth (taken ++ rest))) =
      suffix ((taken ++ rest).drop (exponentWidth (taken ++ rest))) := by
    simp only [drop_append_taken hle] at h ⊢
    refine suffix_append ?_ hr
    rw [List.length_drop]
    exact Nat.eq_sub_of_add_eq' h
  simp only [hwidth, hsuffix]

theorem fractionPart_append (h : (fractionPart (taken ++ rest)).2 = taken.length)
    (hr : Apart rest') : fractionPart (taken ++ rest') = fractionPart (taken ++ rest) := by
  unfold fractionPart at h ⊢
  have hle : fractionWidth (taken ++ rest) ≤ taken.length := by
    simp only at h
    omega
  have hmore : exponentPart ((taken ++ rest').drop (fractionWidth (taken ++ rest))) =
      exponentPart ((taken ++ rest).drop (fractionWidth (taken ++ rest))) := by
    simp only [drop_append_taken hle] at h ⊢
    refine exponentPart_append ?_ hr
    rw [List.length_drop]
    exact Nat.eq_sub_of_add_eq' h
  simp only [fractionWidth_append hle hr, hmore]

/-- A number is read again from its spelling, in front of a blank. -/
theorem number_append (h : (number (taken ++ rest)).2 = taken.length) (hr : Apart rest') :
    number (taken ++ rest') = number (taken ++ rest) := by
  by_cases hb : startsBased (taken ++ rest) = true
  · rw [number_of_based hb] at h
    have htwo : 2 ≤ taken.length := by
      simp only at h
      omega
    have hbased : startsBased (taken ++ rest') = startsBased (taken ++ rest) :=
      startsBased_append (fun _ => htwo) hr
    rw [number_of_based hb, number_of_based (hbased.trans hb)]
    simp only [drop_append_taken htwo] at h ⊢
    have hlength : basedWidth (taken.drop 2 ++ rest) = (taken.drop 2).length := by
      rw [List.length_drop]
      exact Nat.eq_sub_of_add_eq' h
    rw [basedWidth_append hlength hr, hlength]
  · have hb := Bool.eq_false_iff.mpr hb
    have hbased : startsBased (taken ++ rest') = startsBased (taken ++ rest) :=
      startsBased_append (fun ht => absurd (hb.symm.trans ht) (by decide)) hr
    rw [number_of_not_based hb] at h
    have hle : digitsWidth (taken ++ rest) ≤ taken.length := by
      simp only at h
      omega
    have hfraction : fractionPart ((taken ++ rest').drop (digitsWidth (taken ++ rest))) =
        fractionPart ((taken ++ rest).drop (digitsWidth (taken ++ rest))) := by
      simp only [drop_append_taken hle] at h ⊢
      refine fractionPart_append ?_ hr
      rw [List.length_drop]
      exact Nat.eq_sub_of_add_eq' h
    rw [number_of_not_based hb, number_of_not_based (hbased.trans hb), digitsWidth_append hle hr,
      hfraction]

theorem digitsWidth_le (text : Bytes) : digitsWidth text ≤ text.length :=
  length_takeWhile_le isDigitMark text

theorem suffix_length_le (text : Bytes) : (suffix text).length ≤ text.length := by
  unfold suffix
  split
  · exact length_takeWhile_le _ text
  · exact Nat.zero_le _

theorem exponentWidth_le (text : Bytes) : exponentWidth text ≤ text.length := by
  rw [exponentWidth_eq]
  split
  · rename_i hexp
    have htwo : 1 < text.length := by
      apply lt_length_of_getD_ne
      intro hzero
      have hnext := hexp.2
      rw [hzero] at hnext
      exact absurd hnext (by simp [Ascii.isDigit, Ascii.plus, Ascii.minus])
    have hdigits := digitsWidth_le (text.drop 2)
    rw [List.length_drop] at hdigits
    omega
  · exact Nat.zero_le _

theorem fractionWidth_le (text : Bytes) : fractionWidth text ≤ text.length := by
  rw [fractionWidth_eq]
  split
  · rename_i hf
    have hone : 0 < text.length := by
      apply lt_length_of_getD_ne
      rw [← headD_eq_getD, hf.1]
      decide
    have hdigits := digitsWidth_le (text.drop 1)
    rw [List.length_drop] at hdigits
    omega
  · exact Nat.zero_le _

theorem exponentPart_le (text : Bytes) : (exponentPart text).2 ≤ text.length := by
  have hexponent := exponentWidth_le text
  have hsuffix := suffix_length_le (text.drop (exponentWidth text))
  rw [List.length_drop] at hsuffix
  simp only [exponentPart]
  omega

theorem fractionPart_le (text : Bytes) : (fractionPart text).2 ≤ text.length := by
  have hfraction := fractionWidth_le text
  have hmore := exponentPart_le (text.drop (fractionWidth text))
  rw [List.length_drop] at hmore
  simp only [fractionPart]
  omega

theorem basedWidth_le (text : Bytes) : basedWidth text ≤ text.length := by
  have hrun := length_takeWhile_le isHexMark text
  have hsuffix := suffix_length_le (text.drop (text.takeWhile isHexMark).length)
  rw [List.length_drop] at hsuffix
  unfold basedWidth
  omega

theorem number_width_le (text : Bytes) : (number text).2 ≤ text.length := by
  by_cases hb : startsBased text = true
  · have htwo : 1 < text.length := by
      apply lt_length_of_getD_ne
      intro hzero
      rw [startsBased, hzero] at hb
      exact absurd hb (by simp [Bytes.ofAscii])
    have hbased := basedWidth_le (text.drop 2)
    rw [List.length_drop] at hbased
    rw [number_of_based hb]
    simp only
    omega
  · have hwhole := digitsWidth_le text
    have hfraction := fractionPart_le (text.drop (digitsWidth text))
    rw [List.length_drop] at hfraction
    rw [number_of_not_based (Bool.eq_false_iff.mpr hb)]
    simp only
    omega

theorem number_width_pos (h : Ascii.isDigit (text.headD 0) = true) : 0 < (number text).2 := by
  by_cases hb : startsBased text = true
  · rw [number_of_based hb]
    exact Nat.add_pos_left Nat.two_pos _
  · rw [number_of_not_based (Bool.eq_false_iff.mpr hb)]
    exact Nat.add_pos_left (digitsWidth_pos h) _

end RustLua.Token
