import RustLua.Lua.Render
import RustLua.Proofs.Outcome

/-! # The slots of a format

Each slot names one of the values, which are rendered before any of them is named. -/
namespace RustLua.Lua

open Ir (Item)

theorem renderEach_eq_map {s : Settings} {items : List Item} :
    renderEach s items = items.map (renderItem s .value) := by
  induction items with
  | nil => rfl
  | cons i rest ih => rw [renderEach, ih, List.map_cons]

theorem length_renderEach {s : Settings} {items : List Item} :
    (renderEach s items).length = items.length := by
  rw [renderEach_eq_map, List.length_map]

theorem getElem?_renderEach {s : Settings} {items : List Item} {k : Nat} :
    (renderEach s items)[k]? = items[k]?.map (renderItem s .value) := by
  rw [renderEach_eq_map, List.getElem?_map]

theorem slotArguments_cons_ok_iff {values : List (Except Gap Pieces)} {k : Int}
    {rest : List Int} {l : List Pieces} :
    slotArguments values (k :: rest) = .ok l ↔ 1 ≤ k ∧ ∃ p, values[k.toNat - 1]? = some (.ok p) ∧
      ∃ ps, slotArguments values rest = .ok ps ∧ p :: ps = l := by
  rw [slotArguments]
  by_cases hk : k < 1
  · have hk' : ¬ 1 ≤ k := by omega
    simp only [if_pos hk, hk', false_and, iff_false]
    intro h; cases h
  · have hk' : 1 ≤ k := by omega
    simp only [if_neg hk, hk', true_and]
    cases values[k.toNat - 1]? with
    | none =>
      constructor
      · intro h; cases h
      · rintro ⟨p, hp, _⟩; cases hp
    | some value => simp only [bind_eq_ok, pure_eq_ok, Option.some.injEq]

theorem exists_slotArgument {values : List (Except Gap Pieces)} {slots : List Int}
    {args : List Pieces} {k : Int} (h : slotArguments values slots = .ok args) (hk : k ∈ slots) :
    1 ≤ k ∧ ∃ p ∈ args, values[k.toNat - 1]? = some (.ok p) := by
  induction slots generalizing args with
  | nil => cases hk
  | cons j rest ih =>
    obtain ⟨hj, p, hp, ps, hps, rfl⟩ := slotArguments_cons_ok_iff.mp h
    rcases List.mem_cons.mp hk with rfl | hk
    · exact ⟨hj, p, by simp, hp⟩
    · obtain ⟨h1, q, hq, hv⟩ := ih hps hk
      exact ⟨h1, q, by simp [hq], hv⟩

end RustLua.Lua
