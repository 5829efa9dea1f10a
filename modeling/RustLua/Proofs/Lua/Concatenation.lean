import RustLua.Proofs.Lua.Emitter

/-! # Programs behind each other

A statement renders as it does alone. What stands in front of it changes nothing, and what stands
behind it only decides whether a return needs a block of its own. -/
namespace RustLua.Lua

open Ir (Item Program)

variable {s : Settings} {depth : Nat} {endsBlock : Bool} {items : List Item}

/-- Only a return looks at whether it ends its block. -/
theorem renderItem_isLast {i : Item} (h : ∀ value, i ≠ .returnValue value)
    (isLast isLast' : Bool) :
    renderItem s (.statement depth isLast) i = renderItem s (.statement depth isLast') i := by
  cases i with
  | returnValue value => exact absurd rfl (h value)
  | _ => simp only [renderItem, Place.statementOnly, Place.finishValue, Place.finishCall]

/-- Statements with others behind them render as in a block that goes on. -/
theorem renderBody_append_of_ne_nil (before : List Item) (h : items ≠ []) :
    renderBody s depth endsBlock (before ++ items) = (do
      let first ← renderBody s depth false before
      return first ++ (← renderBody s depth endsBlock items)) := by
  induction before with
  | nil =>
    rw [List.nil_append, renderBody]
    cases renderBody s depth endsBlock items <;> rfl
  | cons i before ih =>
    have hempty : (before ++ items).isEmpty = false := by simp [h]
    rw [List.cons_append, renderBody, hempty, ih, renderBody]
    simp only [Bool.and_false, bind_assoc, pure_bind, List.append_assoc]
    rfl

/-- What does not end in a return renders the same whether the block ends behind it or not. -/
theorem renderBody_endsBlock (h : ∀ value, items.getLast? ≠ some (.returnValue value))
    (endsBlock endsBlock' : Bool) :
    renderBody s depth endsBlock items = renderBody s depth endsBlock' items := by
  obtain rfl | ⟨init, i, rfl⟩ := items.eq_nil_or_concat
  · rfl
  · have hi : ∀ value, i ≠ .returnValue value := by simpa using h
    rw [List.concat_eq_append, renderBody_append_of_ne_nil _ (List.cons_ne_nil _ _),
      renderBody_append_of_ne_nil _ (List.cons_ne_nil _ _), renderBody, renderBody,
      renderItem_isLast hi]
    rfl

theorem renderBody_append {before : List Item}
    (h : ∀ value, before.getLast? ≠ some (.returnValue value)) :
    renderBody s depth endsBlock (before ++ items) = (do
      let first ← renderBody s depth endsBlock before
      return first ++ (← renderBody s depth endsBlock items)) := by
  cases items with
  | nil =>
    rw [List.append_nil, renderBody]
    cases renderBody s depth endsBlock before with
    | error => rfl
    | ok pieces => exact congrArg Except.ok (List.append_nil pieces).symm
  | cons i items => rw [renderBody_append_of_ne_nil _ (by simp), renderBody_endsBlock h]

/-- The program of two that stand behind each other renders exactly if both do, to their two
texts. In every block a statement renders by itself: only the number of loops around the block
and whether the statement ends it count. An emitter, which has a state, writes the same; it
writes a statement as if no other had been in front of it, and leaves the value flag and the
number of loops behind as they were. -/
theorem generate_append {a b : Program} (h : ∀ value, a.items.getLast? ≠ some (.returnValue value)) :
    (∀ text, generate s (some ⟨a.items ++ b.items⟩) = .ok text ↔
      ∃ x y, generate s (some a) = .ok x ∧ generate s (some b) = .ok y ∧ text = x ++ y) ∧
    (∀ depth endsBlock (before : List Item) i (after : List Item),
      renderBody s depth endsBlock (before ++ i :: after) = (do
        let x ← renderBody s depth false before
        let y ← renderItem s (.statement depth (endsBlock && after.isEmpty)) i
        let z ← renderBody s depth endsBlock after
        return x ++ (y ++ z))) ∧
    (∀ unit, emit s unit = generate s unit) ∧
    ∀ depth isLast i, Emitter.Emits (Emitter.statement isLast i (Emitter.visit s i)) depth false
      (renderItem s (.statement depth isLast) i) := by
  refine ⟨fun text => ?_, fun depth endsBlock before i after => ?_, emit_eq_generate s,
    fun depth isLast i => (Emitter.simulates s i).statement depth isLast⟩
  · simp only [generate, renderProgram, renderBody_append h, map_eq_ok, bind_eq_ok, pure_eq_ok]
    constructor
    · rintro ⟨_, ⟨x, hx, y, hy, rfl⟩, rfl⟩
      exact ⟨_, _, ⟨x, hx, rfl⟩, ⟨y, hy, rfl⟩, List.flatMap_append⟩
    · rintro ⟨_, _, ⟨x, hx, rfl⟩, ⟨y, hy, rfl⟩, rfl⟩
      exact ⟨_, ⟨x, hx, y, hy, rfl⟩, List.flatMap_append⟩
  · rw [renderBody_append_of_ne_nil _ (by simp), renderBody]
    simp only [bind_assoc, pure_bind]

/-- A loop with a jump to its label, a closure with a loop of its own, and behind them a return. -/
theorem generate_append_loops :
    generate {} (some ⟨[.whileLoop (.closure [] [.whileLoop (.bool true) [.continueLoop]])
        [.continueLoop]] ++ [.returnValue (.closure [] [.returnValue .missing])]⟩) =
      .ok ("while function()while true do goto __continue__; ::__continue__:: end;end do " ++
        ("goto __continue__; ::__continue__:: end;" ++ "return function()return;end;")) :=
  ((generate_append (by simp)).1 _).mpr ⟨_, _, rfl, rfl, rfl⟩

end RustLua.Lua
