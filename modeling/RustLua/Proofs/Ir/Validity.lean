import RustLua.Proofs.Ir.Problems
import RustLua.Proofs.Ir.Regular

/-! # The problems of regular nodes

A regular node has only one kind of problem: a format whose values are not as
many as its marks. Names are words, so none is blank; children are there, so none
is reported as missing; and with as many values as marks every slot is in range. -/
namespace RustLua.Ir

variable {x : Item} {r : Role}

/-! ## One node -/

theorem isBlank_letter {b : UInt8} (h : Ascii.isLetter b = true) :
    b < 0x80 ∧ Unicode.isBlank (Char.ofNat b.toNat) = false := by
  have key : ∀ n : Fin 256, Ascii.isLetter (UInt8.ofNat n.val) = true →
      UInt8.ofNat n.val < 0x80 ∧
        Unicode.isBlank (Char.ofNat (UInt8.ofNat n.val).toNat) = false := by decide +kernel
  have := key ⟨b.toNat, b.toNat_lt⟩
  simpa using this (by simpa using h)

theorem isBlankText_word {name : Bytes} (h : Lua.isWord name = true) :
    Unicode.isBlankText name = false := by
  cases name with
  | nil => simp [Lua.isWord] at h
  | cons b rest =>
    simp only [Lua.isWord, Bool.and_eq_true] at h
    obtain ⟨hlt, hb⟩ := isBlank_letter h.1
    simp [Unicode.isBlankText, Utf8.chunks, Utf8.chunksFrom, Utf8.head?, hlt,
      Unicode.isBlankChunk, hb]

theorem ne_nil_word {name : Bytes} (h : Lua.isWord name = true) : name ≠ [] := by
  rintro rfl
  cases h

/-- All that a regular node can lack by itself is values. With too few of them, the last slot
is out of range. -/
theorem Item.Regular.sound_iff (h : x.Regular r) : x.Sound ↔ x.FilledHere := by
  induction h with
  | ofValue _ ih => exact ih
  | bool | integer | decimal | string | call | array | breakLoop | continueLoop | returnValue
  | ifElif | whileLoop => exact Iff.rfl
  | ident hn | varDecl hn | varSet hn | mod hn | forRange hn | forIn hn =>
    exact iff_of_true (isBlankText_word hn) trivial
  | function hn hp =>
    exact iff_of_true ⟨isBlankText_word hn, fun p hm => ne_nil_word (hp p hm)⟩ trivial
  | closure hp => exact iff_of_true (fun p hm => ne_nil_word (hp p hm)) trivial
  | externs hne hn => exact iff_of_true ⟨hne, fun n hm => isBlankText_word (hn n hm)⟩ trivial
  | binary hk hc => exact iff_of_true ⟨hk, hc⟩ trivial
  | @format fragments slots values hf hs =>
    have hslots : ∀ k, k ∈ slots ↔ 1 ≤ k ∧ k ≤ slots.length := fun k => by
      rw [hs, mem_slotNumbers, ← hs]
    constructor
    · rintro ⟨-, hle, hrange⟩
      change values.length = slots.length
      by_cases hpos : 1 ≤ slots.length
      · have hlast := hrange slots.length ((hslots _).mpr (by omega))
        omega
      · omega
    · intro hn
      change values.length = slots.length at hn
      exact ⟨hf, Nat.le_of_eq hn, fun k hk => hn ▸ (hslots k).mp hk⟩

/-! ## All nodes -/

/-- What stands in a seat is used as this. -/
def Seat.role : Seat → Role
  | .item _ _ => .statement
  | .required _ | .optional _ => .value

/-- A seat that may be empty is not. -/
def Seat.Taken (p : Seat × Item) : Prop := ∀ step, p.1 = .optional step → p.2 ≠ .missing

/-- What stands below a regular node is regular as what it is used there. -/
theorem Item.Regular.seats (h : x.Regular r) :
    ∀ p ∈ x.seats, Seat.Taken p → p.2.Regular p.1.role := by
  induction h with
  | ofValue _ ih => exact ih
  | ident | bool | integer | decimal | string | externs | breakLoop | continueLoop =>
    exact fun _ hp => by cases hp
  | call hf ha =>
    exact List.forall_mem_cons.mpr ⟨fun _ => hf, forall_mem_childSeats fun y hy _ _ => ha y hy⟩
  | closure _ hb | function _ _ hb | mod _ hb => exact forall_mem_bodySeats fun y hy _ _ => hb y hy
  | array hv | format _ _ hv => exact forall_mem_childSeats fun y hy _ _ => hv y hy
  | binary _ _ hl hr => simpa [Item.seats] using ⟨fun _ => hl, fun _ => hr⟩
  | varDecl _ hv | varSet _ hv => exact List.forall_mem_singleton.mpr fun _ => hv
  | returnValue hv => exact List.forall_mem_singleton.mpr fun ht => hv (ht _ rfl)
  | @ifElif _ _ _ otherwise hc hb hec heb ho =>
    simp only [Item.seats, List.forall_mem_append, List.forall_mem_cons]
    refine ⟨⟨⟨fun _ => hc, forall_mem_bodySeats fun y hy _ _ => hb y hy⟩, fun p hp => ?_⟩,
      forall_mem_bodySeats fun y hy _ _ => ?_⟩
    · obtain ⟨i, e, he, hs⟩ := mem_elifSeats.mp hp
      have hmem := List.mem_of_getElem? he
      have hseats : ∀ p ∈ elifSeats i e, Seat.Taken p → p.2.Regular p.1.role :=
        List.forall_mem_cons.mpr
          ⟨fun _ => hec e hmem, forall_mem_bodySeats fun y hy _ _ => heb e hmem y hy⟩
      exact hseats p hs
    · cases otherwise with
      | none => cases hy
      | some last => exact ho last rfl y hy
  | whileLoop hc hb | forIn _ hc hb =>
    exact List.forall_mem_cons.mpr ⟨fun _ => hc, forall_mem_bodySeats fun y hy _ _ => hb y hy⟩
  | forRange _ hmin hmax hs hb =>
    simp only [Item.seats, List.forall_mem_cons]
    exact ⟨fun _ => hmin, fun _ => hmax, fun ht => hs (ht _ rfl),
      forall_mem_bodySeats fun y hy _ _ => hb y hy⟩

theorem Item.filled_iff_seats : x.Filled ↔ x.FilledHere ∧ ∀ p ∈ x.seats, p.2.Filled := by
  rw [Item.filled_iff, x.forall_mem_seats false fun q => q.2.Filled]

theorem filled_missing : Item.Filled .missing := by
  rw [Item.filled_iff]
  simp [Item.FilledHere, Item.parts]

/-- A regular node has no problems exactly if its formats have as many values as marks. -/
theorem Item.Regular.problems_nil_iff (h : x.Regular r) (path : Path) :
    itemProblems path x = [] ↔ x.Filled := by
  induction x using Item.induction_seats generalizing r path with
  | step x ih =>
    have hseat : ∀ p ∈ x.seats, seatProblems path p = [] ↔ p.2.Filled := by
      rintro ⟨seat, y⟩ hy
      by_cases ht : Seat.Taken (seat, y)
      · have hr := h.seats _ hy ht
        rw [seatProblems_of_ne hr.ne_missing, ih _ hy hr]
      · obtain ⟨step, rfl, rfl⟩ : ∃ step, seat = .optional step ∧ y = .missing := by
          simpa [Seat.Taken] using ht
        exact iff_of_true rfl filled_missing
    rw [itemProblems_eq, Item.map_defects h.ne_missing, List.append_eq_nil_iff, broken_eq_nil_iff,
      List.forall_mem_map, ← Item.sound_iff, h.sound_iff, List.flatMap_eq_nil_iff,
      forall₂_congr hseat, ← Item.filled_iff_seats]

theorem Program.Regular.problems_eq_nil_iff {program : Program} (h : program.Regular) :
    program.problems = [] ↔ ∀ i ∈ program.items, i.Filled := by
  have hbody : program.problems = (bodySeats none program.items).flatMap (seatProblems []) :=
    bodyProblems_eq [] none program.items
  rw [hbody, List.flatMap_eq_nil_iff]
  constructor
  · intro hp x hx
    obtain ⟨i, hi⟩ := List.mem_iff_getElem?.mp hx
    exact ((h x hx).problems_nil_iff _).mp (hp _ (mem_bodySeats.mpr ⟨i, hi, rfl⟩))
  · exact fun hf => forall_mem_bodySeats fun x hx _ => ((h x hx).problems_nil_iff _).mpr (hf x hx)

end RustLua.Ir
