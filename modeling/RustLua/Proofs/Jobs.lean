import Mathlib.Algebra.Order.Monoid.Unbundled.Basic
import Mathlib.Algebra.Order.Ring.Nat

/-! # Lists of jobs

What the pools of workers have in common. A step changes one entry of a list and uses up
work, and as long as a job is not done there is one that can go on. -/
namespace RustLua.Jobs

variable {α : Type} {i : Nat} {l : List α}

theorem set_eq_of_getElem? {a : α} (h : l[i]? = some a) : l.set i a = l := by
  obtain ⟨hlt, rfl⟩ := List.getElem?_eq_some_iff.mp h
  exact List.set_getElem_self hlt

section Work
variable {f g : α → Nat} {k : Nat}

theorem sum_map_le (hle : ∀ a, g a ≤ f a + k) (l : List α) :
    (l.map g).sum ≤ (l.map f).sum + k * l.length := by
  induction l with
  | nil => simp
  | cons a l ih =>
    have ha := hle a
    simp only [List.map_cons, List.sum_cons, List.length_cons, Nat.mul_succ]
    omega

/-- What goes down in one place, and up by at most `k` in the others. -/
theorem sum_map_set_lt {a b : α} (hle : ∀ a, g a ≤ f a + k) (ha : l[i]? = some a)
    (hlt : g b < f a) : ((l.set i b).map g).sum < (l.map f).sum + k * l.length := by
  induction l generalizing i with
  | nil => cases ha
  | cons c l ih =>
    cases i with
    | zero =>
      cases ha
      have hrest := sum_map_le hle l
      simp only [List.set_cons_zero, List.map_cons, List.sum_cons, List.length_cons, Nat.mul_succ]
      omega
    | succ i =>
      have hc := hle c
      have hrest := ih ha
      simp only [List.set_cons_succ, List.map_cons, List.sum_cons, List.length_cons, Nat.mul_succ]
      omega

end Work

/-- A job that is not done is under way, or no job is under way and one waits that comes
before all others that wait. -/
theorem exists_ready {isWaiting isDone : α → Bool} (h : ∃ a ∈ l, isDone a = false) :
    ∃ i a, l[i]? = some a ∧ ((isWaiting a = false ∧ isDone a = false) ∨
      (isWaiting a = true ∧ (l.take i).all (!isWaiting ·) = true ∧
        (l.countP fun a => !isWaiting a && !isDone a) = 0)) := by
  by_cases hidle : ∀ a ∈ l, isWaiting a = true ∨ isDone a = true
  · obtain ⟨a, ha, hd⟩ := h
    have hwaits : ∃ a ∈ l, isWaiting a = true := ⟨a, ha, by simpa [hd] using hidle a ha⟩
    obtain ⟨i, hi⟩ := Option.isSome_iff_exists.mp (List.findIdx?_isSome.trans
      (by simpa using hwaits) : (l.findIdx? isWaiting).isSome = true)
    obtain ⟨hlt, hwait, hbefore⟩ := List.findIdx?_eq_some_iff_getElem.mp hi
    refine ⟨i, l[i], List.getElem?_eq_getElem hlt, .inr ⟨hwait, ?_, ?_⟩⟩
    · refine List.all_eq_true.mpr fun b hb => ?_
      obtain ⟨j, hj, rfl⟩ := List.getElem_of_mem hb
      simp only [List.length_take, List.getElem_take] at hj ⊢
      simpa using hbefore j (by omega)
    · refine List.countP_eq_zero.mpr fun b hb => ?_
      rcases hidle b hb with h | h <;> simp [h]
  · obtain ⟨a, ha, hw, hd⟩ : ∃ a ∈ l, isWaiting a = false ∧ isDone a = false := by
      simpa using hidle
    obtain ⟨i, hi⟩ := List.getElem?_of_mem ha
    exact ⟨i, a, hi, .inl ⟨hw, hd⟩⟩

end RustLua.Jobs
