import RustLua.Lua.Piece

/-! # Words -/
namespace RustLua.Lua

variable {a b : Bytes}

theorem all_isWord (ha : isWord a = true) : a.all Ascii.isWord = true := by
  cases a with
  | nil => rfl
  | cons c a =>
    simp only [isWord, Bool.and_eq_true] at ha
    simp [ha.2, Ascii.isWord, ha.1]

theorem isWord_append (ha : isWord a = true) (hb : b.all Ascii.isWord = true) :
    isWord (a ++ b) = true := by
  cases a with
  | nil => cases ha
  | cons c a =>
    simp only [isWord, Bool.and_eq_true, List.cons_append, List.all_append] at ha ⊢
    exact ⟨ha.1, ha.2, hb⟩

/-- What stands in front of a part of a word may be followed by any other word. -/
theorem isWord_replace_ending {c : Bytes} (h : isWord (a ++ b) = true) (hc : isWord c = true) :
    isWord (a ++ c) = true := by
  cases a with
  | nil => exact hc
  | cons x a =>
    simp only [List.cons_append, isWord, Bool.and_eq_true, List.all_append] at h ⊢
    exact ⟨h.1, h.2.1, all_isWord hc⟩

/-- No reserved word has an underscore. -/
theorem not_isReserved (h : Ascii.underscore ∈ a) : isReserved a = false := by
  have hall : ∀ word ∈ reservedWords, Ascii.underscore ∉ Bytes.ofString word := by decide
  cases hr : isReserved a with
  | false => rfl
  | true =>
    obtain ⟨word, hw, he⟩ := List.any_eq_true.mp hr
    rw [decide_eq_true_eq] at he
    rw [← he] at h
    exact absurd h (hall word hw)

theorem isWord_of_isName (h : isName a = true) : isWord a = true :=
  (Bool.and_eq_true_iff.mp h).1

end RustLua.Lua
