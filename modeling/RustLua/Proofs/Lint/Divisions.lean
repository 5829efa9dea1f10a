import RustLua.Proofs.Lint.Nodes

/-! # Every division is warned of once

The walk over a body goes into every expression, and the items inside a body are linted by the
rules for items. So a division in a function inside another is reached from two sides, and yet
there is one warning for each division. -/
namespace RustLua.Lint

open RustLua.Tree

def isFunction : Item → Bool
  | .fn .. => true
  | _ => false

/-- A division at an address of a file. It lies in the body of some function, and no impl block
and no constant lies around it. -/
def DividesAt (file : File) (a : Address) (pos : Pos) : Prop :=
  (∃ n, (Node.file file).at? isOpen a = some n ∧ nodeDivision? n = some pos) ∧
    ∃ outer, outer <+: a ∧ ∃ f, (Node.file file).at? isOpen outer = some (.item f) ∧ isFunction f

/-- From outside all code one comes to code through a function only. -/
theorem at?_through_function {n m : Node} {a : Address} (h : n.at? isOpen a = some m)
    (hn : isCode n = false) (hm : isCode m) :
    ∃ outer, outer <+: a ∧ ∃ f, n.at? isOpen outer = some (.item f) ∧ isFunction f := by
  induction a generalizing n with
  | nil =>
    cases h
    rw [hn] at hm
    cases hm
  | cons i a ih =>
    have below (hitems : ∀ p ∈ n.parts, isCode p = false) :
        ∃ outer, outer <+: i :: a ∧ ∃ f, n.at? isOpen outer = some (.item f) ∧ isFunction f := by
      rw [Node.at?] at h
      split at h
      · rename_i hopen
        obtain ⟨p, hp, h⟩ := Option.bind_eq_some_iff.mp h
        obtain ⟨outer, hpre, f, hf, hfn⟩ := ih h (hitems p (List.mem_of_getElem? hp))
        exact ⟨i :: outer, (List.prefix_cons_inj i).mpr hpre, f, by simp [Node.at?, hopen, hp, hf],
          hfn⟩
      · cases h
    cases n with
    | file f => exact below (by simp [Node.parts, isCode])
    | item f =>
      cases f with
      | fn => exact ⟨[], List.nil_prefix, _, rfl, rfl⟩
      | inlineModule => exact below (by simp [Node.parts, Item.parts, isCode])
      | impl | const => cases h
      | foreign | fileModule | use | typeDef => exact below (by simp [Node.parts, Item.parts])
    | _ => cases hn

/-- The warnings on divisions are those of the divisions in functions, each at its position. -/
theorem division_warnings_exact (file : File) :
    Corresponds (fun a w => w.finding = .floatDivision ∧ DividesAt file a w.pos)
      ((warnings file).filter (·.finding = .floatDivision)) := by
  have hkey : Function.Injective2 fun (a : Address) (_ : Unit) => a := fun _ _ _ _ h => ⟨h, rfl⟩
  have hk (f : Finding) (h : decide (f = .floatDivision)) : f.isOnUse := by
    rw [of_decide_eq_true h]
    rfl
  refine corresponds_found hkey hk
    (fun n => (nodeDivision? n).toList.map fun pos => ((), ⟨.floatDivision, pos⟩))
    (fun n => ?_) (fun scope n => .of_eq ?_) (fun a w => ?_)
  · cases nodeDivision? n <;> simp
  · have hfunction (f : Function) :
        (unusedWarnings scope f).filter (·.finding = .floatDivision) = [] :=
      filter_unusedWarnings (· = .floatDivision) (p := false) (v := false) (fun _ _ => rfl)
        (fun _ => rfl) scope f
    rw [ownWarnings, List.filter_append, List.filter_flatMap]
    cases function? n <;> cases nodeDivision? n <;> simp [hfunction]
  · constructor
    · rintro ⟨hw, ⟨n, hn, hpos⟩, -⟩
      exact ⟨a, (), n, rfl, hn, by simp [hpos, ← hw]⟩
    · rintro ⟨_, _, n, rfl, hn, hw⟩
      obtain ⟨pos, hpos, hw⟩ := List.mem_map.mp hw
      cases hw
      have hpos := Option.mem_toList.mp hpos
      have hcode : isCode n := by
        cases n with
        | expr | target => rfl
        | _ => cases hpos
      exact ⟨rfl, ⟨n, hn, hpos⟩, at?_through_function hn rfl hcode⟩

end RustLua.Lint
