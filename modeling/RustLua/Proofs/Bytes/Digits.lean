import RustLua.Bytes.Ascii

/-! # Digits of numbers

Numbers are written with digits only, at least one, and differently; reading the digits
gives the number back. -/
namespace RustLua.Bytes

theorem forall_mem_toDigits {base : Nat} (hb : 1 < base) {P : Char → Prop}
    (h : ∀ k < base, P k.digitChar) (n : Nat) : ∀ c ∈ Nat.toDigits base n, P c := by
  induction n using Nat.strongRecOn with
  | ind n ih =>
    rw [Nat.toDigits_eq_if hb]
    split
    · simpa using h n ‹_›
    · intro c hc
      rcases List.mem_append.mp hc with hc | hc
      · exact ih (n / base) (Nat.div_lt_self (by omega) hb) c hc
      · rw [List.mem_singleton.mp hc]
        exact h _ (Nat.mod_lt _ (by omega))

theorem decimal_ne_nil (n : Nat) : decimal n ≠ [] := by
  simp [decimal, Nat.toDigits_ne_nil]

theorem isDigit_of_mem_decimal {n : Nat} {b : UInt8} (h : b ∈ decimal n) :
    Ascii.isDigit b = true := by
  obtain ⟨c, hc, rfl⟩ := List.mem_map.mp h
  exact forall_mem_toDigits (P := fun c => Ascii.isDigit (ofAscii c) = true) (by decide)
    (by decide) n c hc

theorem map_decimal (n : Nat) :
    (decimal n).map (fun b => Char.ofNat b.toNat) = Nat.toDigits 10 n := by
  have hback : ∀ c ∈ Nat.toDigits 10 n, Char.ofNat (ofAscii c).toNat = c :=
    forall_mem_toDigits (by decide) (by decide) n
  rw [decimal, List.map_map]
  exact (List.map_congr_left hback).trans (List.map_id _)

theorem decimal_injective {m n : Nat} (h : decimal m = decimal n) : m = n := by
  have hchars : Nat.toDigits 10 m = Nat.toDigits 10 n := by
    rw [← map_decimal m, ← map_decimal n, h]
  rw [← Nat.ofDigitChars_ten_toDigits (n := m), hchars, Nat.ofDigitChars_ten_toDigits]

/-! ## Reading -/

theorem foldlM_toDigits {base : Nat} (hb : 1 < base)
    (hdigit : ∀ k < base, digitValue? base (ofAscii k.digitChar) = some k) (n : Nat) :
    ((Nat.toDigits base n).map ofAscii).foldlM
      (fun acc b => (digitValue? base b).map (acc * base + ·)) 0 = some n := by
  induction n using Nat.strongRecOn with
  | ind n ih =>
    rw [Nat.toDigits_eq_if hb]
    split
    · simp [hdigit n ‹_›]
    · have hrest := ih (n / base) (Nat.div_lt_self (by omega) hb)
      rw [List.map_append, List.foldlM_append, hrest]
      simp [hdigit (n % base) (Nat.mod_lt _ (by omega)), Nat.div_add_mod']

@[simp] theorem digitsValue?_decimal (n : Nat) : digitsValue? 10 (decimal n) = some n := by
  rw [digitsValue?, if_neg (by simpa using decimal_ne_nil n), decimal,
    foldlM_toDigits (by decide) (by decide)]

theorem hexadecimal_one (n : Nat) : hexadecimal 1 n = (Nat.toDigits 16 n).map ofAscii := by
  have hlength : 1 ≤ (Nat.toDigits 16 n).length := Nat.length_toDigits_pos
  simp [hexadecimal, Nat.sub_eq_zero_of_le hlength]

theorem isHexDigit_of_mem_hexadecimal {n : Nat} {b : UInt8} (h : b ∈ hexadecimal 1 n) :
    Ascii.isHexDigit b = true := by
  rw [hexadecimal_one] at h
  obtain ⟨c, hc, rfl⟩ := List.mem_map.mp h
  exact forall_mem_toDigits (P := fun c => Ascii.isHexDigit (ofAscii c) = true) (by decide)
    (by decide) n c hc

@[simp] theorem digitsValue?_hexadecimal (n : Nat) :
    digitsValue? 16 (hexadecimal 1 n) = some n := by
  rw [hexadecimal_one, digitsValue?, if_neg (by simp [Nat.toDigits_ne_nil]),
    foldlM_toDigits (by decide) (by decide)]

/-- The integer that a text spells. -/
def integerValue? : Bytes → Option Int
  | [] => none
  | b :: rest =>
    if b = ofAscii '-' then (digitsValue? 10 rest).map fun n => -(n : Int)
    else (digitsValue? 10 (b :: rest)).map Int.ofNat

@[simp] theorem integerValue?_integer (n : Int) : integerValue? (integer n) = some n := by
  cases n with
  | ofNat n =>
    cases hd : decimal n with
    | nil => exact absurd hd (decimal_ne_nil n)
    | cons b rest =>
      have hb : Ascii.isDigit b = true := isDigit_of_mem_decimal (n := n) (by simp [hd])
      have hne : b ≠ ofAscii '-' := by
        rintro rfl
        exact absurd hb (by decide)
      change integerValue? (decimal n) = _
      rw [hd, integerValue?, if_neg hne, ← hd, digitsValue?_decimal]
      rfl
  | negSucc n =>
    simp [integer, integerValue?]
    omega

end RustLua.Bytes
