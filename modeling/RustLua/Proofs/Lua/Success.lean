import RustLua.Proofs.Ir.Validity
import RustLua.Proofs.Lua.Gaps

/-! # When rendering succeeds

Of all reasons to refuse a node, a regular one whose formats are filled has only one left: it
is a break or continue that stands outside the loops of its function. -/
namespace RustLua

def Lua.Use.role : Lua.Use → Ir.Role
  | .value => .value
  | .statement _ => .statement

namespace Ir

open Lua (Use Refuses)

variable {x y : Item} {r : Role} {b : Bool} {u : Use} {seat : Seat}

/-! ## Seats of regular nodes -/

theorem Seat.role_use (seat : Seat) (b : Bool) : (seat.use b).role = seat.role := by
  cases seat <;> rfl

/-- No body stands in a value but that of a closure. -/
theorem Item.Regular.use_eq (h : x.Regular .value) (b : Bool) :
    ∀ p ∈ x.seats, p.1.use b = p.1.use false := by
  cases h with
  | ident | bool | integer | decimal | string => exact fun _ hp => by cases hp
  | call => exact List.forall_mem_cons.mpr ⟨rfl, forall_mem_childSeats fun _ _ _ => rfl⟩
  | closure => exact forall_mem_bodySeats fun _ _ _ => rfl
  | array | format => exact forall_mem_childSeats fun _ _ _ => rfl
  | binary => simp [Item.seats, Seat.use]

/-! ## Refusals of regular nodes -/

/-- What is no statement is regular as a value. -/
theorem Item.Regular.value (h : x.Regular r) (hx : Lua.statementName? x = none) :
    x.Regular .value := by
  cases h with
  | ofValue h => exact h
  | function | varDecl | varSet | externs | mod | breakLoop | continueLoop | returnValue | ifElif
  | whileLoop | forRange | forIn => cases hx
  | _ => constructor <;> assumption

/-- The one refusal of a regular node by itself. -/
theorem Item.Regular.refuses_iff (h : x.Regular u.role) (hf : x.FilledHere) :
    (∃ g, Refuses u x g) ↔ x.isJump = true ∧ u = .statement false := by
  constructor
  · rintro ⟨g, hr⟩
    cases hr with
    | noStatement | noExpression => exact absurd rfl h.ne_missing
    | usedAsValue hw =>
      replace h : x.Regular .value := h
      cases h <;> cases hw
    | breakOutside | continueOutside => exact ⟨rfl, rfl⟩
    | emptyIdentifier =>
      cases h.value rfl with
      | ident hn => cases hn
    | compoundOperator hc | unknownOperator hc =>
      cases h.value rfl with
      | binary hk hp => simp_all
    | fragmentCount hc =>
      cases h.value rfl with
      | format hs => exact absurd hs hc
    | valueCount hc =>
      replace hf : _ = _ := hf
      omega
    | slotWithoutValue hs hc =>
      cases h.value rfl with
      | format _ hn =>
        replace hf : _ = _ := hf
        rw [hn, mem_slotNumbers] at hs
        omega
  · rintro ⟨hj, rfl⟩
    cases x with
    | breakLoop => exact ⟨_, .breakOutside⟩
    | continueLoop => exact ⟨_, .continueOutside⟩
    | _ => cases hj

/-! ## Refusals in regular nodes -/

/-- A filled node shows all that stands below it. -/
theorem Item.Regular.shows (h : x.Regular r) (hf : x.FilledHere) (hy : (seat, y) ∈ x.seats)
    (hne : y ≠ .missing) : x.Shows seat y where
  seated := hy
  present _ _ := hne
  named := by
    rintro fragments slots values i rfl rfl
    obtain ⟨j, hj, heq⟩ := mem_childSeats.mp hy
    cases heq
    have hlt := (List.getElem?_eq_some_iff.mp hj).1
    replace hf : values.length = slots.length := hf
    cases h.value rfl with
    | format _ hn =>
      rw [hn, mem_slotNumbers]
      omega

/-- Nothing that is rendered with a node refuses to be. -/
def Item.Accepted (u : Use) (x : Item) : Prop := ∀ v y g, Reaches u x v y → ¬ Refuses v y g

theorem Item.accepted_iff : x.Accepted u ↔
    (¬ ∃ g, Refuses u x g) ∧ ∀ seat y, x.Shows seat y → y.Accepted (seat.use u.inLoop) := by
  constructor
  · intro h
    exact ⟨fun ⟨g, hg⟩ => h u x g .self hg, fun seat y hy v z g hz => h v z g (.down hy hz)⟩
  · rintro ⟨hx, hs⟩ v z g (_ | ⟨hy, hz⟩) hg
    · exact hx ⟨g, hg⟩
    · exact hs _ _ hy v z g hz hg

theorem Item.settled_iff_seats : x.Settled b ↔ (x.isJump = true → b = true) ∧
    ∀ seat y, (seat, y) ∈ x.seats → y.Settled (seat.inLoop b) := by
  rw [Item.settled_iff, ← x.forall_mem_seats b fun q => q.2.Settled q.1, Prod.forall]

theorem settled_missing (b : Bool) : Item.Settled b .missing := by
  rw [Item.settled_iff]
  simp [Item.isJump, Item.parts]

/-- A regular node whose formats are filled is accepted exactly if no break and no continue in
it is outside the loops of its function. -/
theorem Item.Regular.accepted_iff_settled (h : x.Regular u.role) (hf : x.Filled)
    (hu : u = .value ∨ u = .statement b) : x.Accepted u ↔ x.Settled b := by
  induction x using Item.induction_seats generalizing u b with
  | step x ih =>
    obtain ⟨hhere, hbelow⟩ := Item.filled_iff_seats.mp hf
    have hjump : (¬ ∃ g, Refuses u x g) ↔ (x.isJump = true → b = true) := by
      rw [h.refuses_iff hhere]
      rcases hu with rfl | rfl
      · cases h <;> simp [Item.isJump]
      · simp
    -- What is used as a value has the same uses below it in a loop and outside.
    have huse : ∀ p ∈ x.seats, p.1.use u.inLoop = p.1.use b := by
      rcases hu with rfl | rfl
      · exact fun p hp => (Item.Regular.use_eq h b p hp).symm
      · exact fun _ _ => rfl
    have hseat : ∀ seat y, (seat, y) ∈ x.seats → Seat.Taken (seat, y) →
        (y.Accepted (seat.use b) ↔ y.Settled (seat.inLoop b)) := by
      intro seat y hy ht
      refine ih _ hy (seat.role_use b ▸ h.seats _ hy ht) (hbelow _ hy) ?_
      cases seat <;> simp [Seat.use, Seat.inLoop]
    rw [Item.accepted_iff, Item.settled_iff_seats, hjump]
    refine and_congr_right fun _ => ⟨fun hs seat y hy => ?_, fun hs seat y hy => ?_⟩
    · by_cases hne : y = .missing
      · exact hne ▸ settled_missing _
      · rw [← hseat seat y hy fun _ _ => hne, ← huse _ hy]
        exact hs seat y (h.shows hhere hy hne)
    · rw [huse _ hy.seated, hseat seat y hy.seated hy.present]
      exact hs seat y hy.seated

end Ir
end RustLua
