import Mathlib.Data.List.Nodup
import RustLua.Ir.Problem
import RustLua.Proofs.Ir.Parts

/-! # Seats

Below a node there are seats, each with a node in it or empty: the items of bodies, the
children that must be there, and those that may be left out. Following seats from the
program down gives every site of it, a node's own site before those below it; and the steps
on the way there are a path that leads to no other site. -/
namespace RustLua.Ir

variable {body : Option Step}

/-- Where a node stands below another one. Items of the program itself are in no body. -/
inductive Seat where
  | item (body : Option Step) (i : Nat)
  | required (c : Child)
  | optional (step : Step)
deriving DecidableEq, Repr

/-- The way down to a seat. -/
def Seat.steps : Seat → Path
  | .item body i => body.toList ++ [.item i]
  | .required c => [.child c]
  | .optional step => [step]

/-- Is a body in a loop of its function? Bodies of functions start anew, those of loops are
in one, and all others are where their node is. -/
def Step.inLoop (outside : Bool) : Step → Bool
  | .function _ | .closureBody => false
  | .whileBody | .rangeBody | .inBody => true
  | _ => outside

/-- Is what stands in a seat in a loop of its function, its node being in one or not? -/
def Seat.inLoop (outside : Bool) : Seat → Bool
  | .item body _ => body.elim outside (Step.inLoop outside)
  | .required _ | .optional _ => outside

def bodySeats (body : Option Step) (items : List Item) : List (Seat × Item) :=
  items.zipIdx.map fun (x, i) => (.item body i, x)

def childSeats (c : Nat → Child) (items : List Item) : List (Seat × Item) :=
  items.zipIdx.map fun (x, i) => (.required (c i), x)

def elifSeats (i : Nat) (b : Branch) : List (Seat × Item) :=
  (.required (.elifCond i), b.cond) :: bodySeats (some (.elifBody i)) b.body

/-- All seats below a node, in order, with what stands in them. -/
def Item.seats : Item → List (Seat × Item)
  | .function name _ body => bodySeats (some (.function name)) body
  | .varDecl _ value => [(.required .declValue, value)]
  | .varSet _ value => [(.required .setValue, value)]
  | .mod name items => bodySeats (some (.mod name)) items
  | .returnValue value => [(.optional .returned, value)]
  | .ifElif cond body elifs otherwise =>
    (.required .ifCond, cond) :: bodySeats (some .thenBody) body ++
      elifs.zipIdx.flatMap (fun (b, i) => elifSeats i b) ++
      bodySeats (some .elseBody) (otherwise.getD [])
  | .whileLoop cond body => (.required .whileCond, cond) :: bodySeats (some .whileBody) body
  | .forRange _ min max step body =>
    (.required .rangeMin, min) :: (.required .rangeMax, max) :: (.optional .rangeStep, step) ::
      bodySeats (some .rangeBody) body
  | .forIn _ iterated body => (.required .iterated, iterated) :: bodySeats (some .inBody) body
  | .call func args => (.required .callTarget, func) :: childSeats .callArg args
  | .closure _ body => bodySeats (some .closureBody) body
  | .array elements => childSeats .element elements
  | .binary _ lhs rhs => [(.required .lhs, lhs), (.required .rhs, rhs)]
  | .format _ _ values => childSeats .formatValue values
  | .missing | .externs _ | .breakLoop | .continueLoop | .ident _ | .bool _ | .integer _
  | .decimal _ | .string _ => []

section
variable {x y : Item} {seat : Seat} {items : List Item}

theorem mem_zipIdx_map {f : Nat → Seat} :
    (seat, y) ∈ items.zipIdx.map (fun p => (f p.2, p.1)) ↔
      ∃ i, items[i]? = some y ∧ seat = f i := by
  simp only [List.mem_map, Prod.exists, Prod.mk.injEq, List.mk_mem_zipIdx_iff_getElem?]
  constructor
  · rintro ⟨x, i, hx, rfl, rfl⟩
    exact ⟨i, hx, rfl⟩
  · rintro ⟨i, hx, rfl⟩
    exact ⟨y, i, hx, rfl, rfl⟩

theorem mem_bodySeats :
    (seat, y) ∈ bodySeats body items ↔ ∃ i, items[i]? = some y ∧ seat = .item body i :=
  mem_zipIdx_map

theorem mem_childSeats {c : Nat → Child} :
    (seat, y) ∈ childSeats c items ↔ ∃ i, items[i]? = some y ∧ seat = .required (c i) :=
  mem_zipIdx_map (f := fun i => .required (c i))

theorem mem_of_mem_bodySeats (h : (seat, y) ∈ bodySeats body items) :
    y ∈ items ∧ ∃ i, seat = .item body i := by
  obtain ⟨i, hi, hs⟩ := mem_bodySeats.mp h
  exact ⟨List.mem_of_getElem? hi, i, hs⟩

theorem mem_of_mem_childSeats {c : Nat → Child} (h : (seat, y) ∈ childSeats c items) :
    y ∈ items ∧ ∃ i, seat = .required (c i) := by
  obtain ⟨i, hi, hs⟩ := mem_childSeats.mp h
  exact ⟨List.mem_of_getElem? hi, i, hs⟩

theorem forall_mem_bodySeats {P : Seat × Item → Prop}
    (h : ∀ y ∈ items, ∀ i, P (.item body i, y)) : ∀ p ∈ bodySeats body items, P p := by
  rintro ⟨seat, y⟩ hp
  obtain ⟨hy, i, rfl⟩ := mem_of_mem_bodySeats hp
  exact h y hy i

theorem forall_mem_childSeats {P : Seat × Item → Prop} {c : Nat → Child}
    (h : ∀ y ∈ items, ∀ i, P (.required i, y)) : ∀ p ∈ childSeats c items, P p := by
  rintro ⟨seat, y⟩ hp
  obtain ⟨hy, i, rfl⟩ := mem_of_mem_childSeats hp
  exact h y hy (c i)

theorem mem_elifSeats {elifs : List Branch} :
    (seat, y) ∈ elifs.zipIdx.flatMap (fun (b, i) => elifSeats i b) ↔
      ∃ i b, elifs[i]? = some b ∧ (seat, y) ∈ elifSeats i b := by
  simp only [List.mem_flatMap, Prod.exists, List.mk_mem_zipIdx_iff_getElem?]
  exact exists_comm

@[simp] theorem Seat.inLoop_required (b : Bool) (c : Child) :
    Seat.inLoop b (.required c) = b := rfl

@[simp] theorem Seat.inLoop_optional (b : Bool) (step : Step) :
    Seat.inLoop b (.optional step) = b := rfl

theorem map_zipIdx {α β : Type} (f : α → β) (l : List α) :
    l.zipIdx.map (fun p => f p.1) = l.map f := by
  rw [← Function.comp_def f, ← List.map_map, List.zipIdx_map_fst]

@[simp] theorem map_bodySeats (b : Bool) (body : Option Step) (items : List Item) :
    (bodySeats body items).map (fun p => (p.1.inLoop b, p.2)) =
      items.map (body.elim b (Step.inLoop b), ·) := by
  rw [bodySeats, List.map_map, ← map_zipIdx _ items]
  rfl

@[simp] theorem map_childSeats (b : Bool) (c : Nat → Child) (items : List Item) :
    (childSeats c items).map (fun p => (p.1.inLoop b, p.2)) = items.map (b, ·) := by
  rw [childSeats, List.map_map, ← map_zipIdx _ items]
  rfl

@[simp] theorem map_elifSeats (b : Bool) (elifs : List Branch) :
    elifs.zipIdx.flatMap (fun p => (elifSeats p.2 p.1).map (fun p => (p.1.inLoop b, p.2))) =
      elifs.flatMap fun c => (b, c.cond) :: c.body.map (b, ·) := by
  have hfst := List.flatMap_map Prod.fst (fun c : Branch => (b, c.cond) :: c.body.map (b, ·))
    elifs.zipIdx
  rw [List.zipIdx_map_fst] at hfst
  simp [elifSeats, hfst, Step.inLoop]

/-- Nothing that stands below a node is without a seat, and the seat says whether it is in a
loop. -/
theorem Item.map_seats (b : Bool) (x : Item) :
    x.seats.map (fun p => (p.1.inLoop b, p.2)) = x.parts.map fun p => (p.1.inLoop b, p.2) := by
  cases x <;> simp [Item.seats, Item.parts, List.map_flatMap, Function.comp_def, Step.inLoop,
    Way.inLoop]

theorem Item.forall_mem_seats (b : Bool) (P : Bool × Item → Prop) :
    (∀ p ∈ x.seats, P (p.1.inLoop b, p.2)) ↔ ∀ p ∈ x.parts, P (p.1.inLoop b, p.2) := by
  have hmap := List.forall_mem_map (l := x.seats) (f := fun p => (p.1.inLoop b, p.2)) (P := P)
  rw [← hmap, Item.map_seats, List.forall_mem_map]

theorem Item.exists_mem_parts (h : (seat, y) ∈ x.seats) : ∃ w, (w, y) ∈ x.parts := by
  have hy := List.mem_map_of_mem (f := fun p => (p.1.inLoop false, p.2)) h
  rw [Item.map_seats, List.mem_map] at hy
  obtain ⟨⟨w, _⟩, hp, heq⟩ := hy
  obtain ⟨_, rfl⟩ := Prod.mk.inj heq
  exact ⟨w, hp⟩

/-- Induction over all that stands below a node. -/
theorem Item.induction_seats {P : Item → Prop}
    (step : ∀ x : Item, (∀ p ∈ x.seats, P p.2) → P x) (x : Item) : P x := by
  induction x using Item.induction_parts with
  | step x ih =>
    refine step x fun p hp => ?_
    obtain ⟨w, hw⟩ := Item.exists_mem_parts hp
    exact ih _ hw

theorem Item.sizeOf_seat (h : (seat, y) ∈ x.seats) : sizeOf y < sizeOf x := by
  obtain ⟨w, hw⟩ := Item.exists_mem_parts h
  exact Item.sizeOf_part hw

end

/-! ## Sites -/

/-- A seat of the node at `parent`, and what stands in it. -/
structure Site where
  parent : Path
  seat : Seat
  item : Item

/-- The steps from the program to a site. -/
def Site.path (site : Site) : Path := site.parent ++ site.seat.steps

/-- The sites below the node at a path: each in front of those below it. -/
def Item.sites (path : Path) (x : Item) : List Site :=
  x.seats.attach.flatMap fun ⟨(seat, y), _⟩ => ⟨path, seat, y⟩ :: y.sites (path ++ seat.steps)
termination_by sizeOf x
decreasing_by exact Item.sizeOf_seat ‹_›

/-- The sites that a seat brings: its own and those below it. -/
def seatSites (path : Path) (p : Seat × Item) : List Site :=
  ⟨path, p.1, p.2⟩ :: p.2.sites (path ++ p.1.steps)

theorem Item.sites_eq (path : Path) (x : Item) :
    x.sites path = x.seats.flatMap (seatSites path) := by
  rw [Item.sites, List.flatMap_subtype (g := seatSites path) fun _ _ => rfl, List.unattach_attach]

/-- All sites of a program. -/
def Program.sites (program : Program) : List Site :=
  (bodySeats none program.items).flatMap (seatSites [])

/-- A site is one of the program's own items, or a seat below a node of the program. -/
inductive Program.Has (program : Program) : Site → Prop
  | item {i : Nat} {x : Item} (h : program.items[i]? = some x) : Has program ⟨[], .item none i, x⟩
  | under {site : Site} {seat : Seat} {y : Item} (h : Has program site)
      (hy : (seat, y) ∈ site.item.seats) : Has program ⟨site.path, seat, y⟩

section
variable {program : Program} {site : Site} {seat : Seat} {path : Path} {x y : Item}

/-- What has a seat below a node is listed with the node's sites. -/
theorem Item.mem_sites_seat (h : (seat, y) ∈ x.seats) : ⟨path, seat, y⟩ ∈ x.sites path := by
  rw [Item.sites_eq, List.mem_flatMap]
  exact ⟨_, h, List.mem_cons_self⟩

theorem Item.mem_sites_below (h : site ∈ x.sites path) (hy : (seat, y) ∈ site.item.seats) :
    ⟨site.path, seat, y⟩ ∈ x.sites path := by
  induction x using Item.induction_seats generalizing path with
  | step x ih =>
    rw [Item.sites_eq, List.mem_flatMap] at h ⊢
    obtain ⟨⟨seat', z⟩, hz, hs⟩ := h
    refine ⟨_, hz, List.mem_cons_of_mem _ ?_⟩
    rcases List.mem_cons.mp hs with rfl | hs
    · exact Item.mem_sites_seat hy
    · exact ih _ hz hs

theorem Program.Has.of_mem_sites (h : program.Has site) {below : Site}
    (hb : below ∈ site.item.sites site.path) : program.Has below := by
  obtain ⟨parent, seat, x⟩ := site
  induction x using Item.induction_seats generalizing parent seat with
  | step x ih =>
    rw [Item.sites_eq, List.mem_flatMap] at hb
    obtain ⟨⟨seat', z⟩, hz, hs⟩ := hb
    have hbelow := h.under hz
    rcases List.mem_cons.mp hs with rfl | hs
    · exact hbelow
    · exact ih _ hz _ _ hbelow hs

theorem Program.mem_sites_iff : site ∈ program.sites ↔ program.Has site := by
  constructor
  · intro h
    obtain ⟨⟨seat, x⟩, hx, hs⟩ := List.mem_flatMap.mp h
    obtain ⟨i, hi, rfl⟩ := mem_bodySeats.mp hx
    have hitem : program.Has ⟨[], .item none i, x⟩ := .item hi
    rcases List.mem_cons.mp hs with rfl | hs
    · exact hitem
    · exact hitem.of_mem_sites hs
  · intro h
    induction h with
    | item hi => exact List.mem_flatMap.mpr ⟨_, mem_bodySeats.mpr ⟨_, hi, rfl⟩, List.mem_cons_self⟩
    | under _ hy ih =>
      obtain ⟨p, hp, hs⟩ := List.mem_flatMap.mp ih
      refine List.mem_flatMap.mpr ⟨p, hp, List.mem_cons_of_mem _ ?_⟩
      rcases List.mem_cons.mp hs with rfl | hs
      · exact Item.mem_sites_seat hy
      · exact Item.mem_sites_below hs hy

end

/-! ## No path leads to two sites -/

/-- The first step on the way to a seat. -/
def Seat.first : Seat → Step
  | .item (some body) _ => body
  | .item none i => .item i
  | .required c => .child c
  | .optional step => step

/-- Two ways down that part before either ends. -/
def Seat.Apart (a b : Seat) : Prop := ∀ m n : Path, a.steps ++ m ≠ b.steps ++ n

section
variable {program : Program} {site : Site} {a b : Seat} {path : Path} {x : Item}
  {p : Seat × Item} {seats more : List (Seat × Item)}

@[simp] theorem Seat.first_required (c : Child) : (Seat.required c).first = .child c := rfl

@[simp] theorem Seat.first_optional (step : Step) : (Seat.optional step).first = step := rfl

theorem Seat.exists_steps_eq (a : Seat) : ∃ rest, a.steps = a.first :: rest := by
  cases a with
  | item body i => cases body <;> exact ⟨_, rfl⟩
  | required c => exact ⟨_, rfl⟩
  | optional step => exact ⟨_, rfl⟩

theorem Seat.apart_of_first (h : a.first ≠ b.first) : a.Apart b := by
  intro m n he
  obtain ⟨r, hr⟩ := a.exists_steps_eq
  obtain ⟨r', hr'⟩ := b.exists_steps_eq
  rw [hr, hr'] at he
  exact h (List.cons.inj he).1

/-- The ways to the seats of a list part, any two of them. -/
def Parting (seats : List (Seat × Item)) : Prop := seats.Pairwise fun p q => p.1.Apart q.1

theorem Parting.cons (h : ∀ q ∈ seats, p.1.first ≠ q.1.first) (hs : Parting seats) :
    Parting (p :: seats) :=
  List.pairwise_cons.mpr ⟨fun q hq => Seat.apart_of_first (h q hq), hs⟩

theorem Parting.append (hs : Parting seats) (hm : Parting more)
    (h : ∀ p ∈ seats, ∀ q ∈ more, p.1.first ≠ q.1.first) : Parting (seats ++ more) :=
  List.pairwise_append.mpr ⟨hs, hm, fun p hp q hq => Seat.apart_of_first (h p hp q hq)⟩

/-- Numbered seats part if the seats of two numbers do. -/
theorem parting_zipIdx {α : Type} {f : α → Nat → List (Seat × Item)} {l : List α}
    (hf : ∀ a i, Parting (f a i))
    (h : ∀ a b i j, i ≠ j → ∀ p ∈ f a i, ∀ q ∈ f b j, p.1.Apart q.1) :
    Parting (l.zipIdx.flatMap fun (a, i) => f a i) := by
  have hne : (List.range' 0 l.length).Nodup := List.nodup_range'
  rw [← List.zipIdx_map_snd, List.Nodup, List.pairwise_map] at hne
  exact List.pairwise_flatMap.mpr ⟨fun _ _ => hf _ _, hne.imp fun hij => h _ _ _ _ hij⟩

theorem parting_bodySeats (body : Option Step) (items : List Item) :
    Parting (bodySeats body items) := by
  rw [bodySeats, List.map_eq_flatMap]
  refine parting_zipIdx (f := fun x i => [(.item body i, x)])
    (fun _ _ => List.pairwise_singleton _ _) ?_
  simp only [List.mem_singleton, forall_eq]
  intro _ _ i j hij m n he
  simp only [Seat.steps, List.append_assoc, List.append_cancel_left_eq] at he
  cases he
  exact hij rfl

theorem parting_childSeats {c : Nat → Child} (hc : Function.Injective c) (items : List Item) :
    Parting (childSeats c items) := by
  rw [childSeats, List.map_eq_flatMap]
  refine parting_zipIdx (f := fun x i => [(.required (c i), x)])
    (fun _ _ => List.pairwise_singleton _ _) ?_
  simp only [List.mem_singleton, forall_eq]
  intro _ _ i j hij
  exact Seat.apart_of_first fun he => hij (hc (Step.child.inj he))

theorem first_bodySeats {body : Step} {items : List Item} (h : p ∈ bodySeats (some body) items) :
    p.1.first = body := by
  obtain ⟨i, _, hi⟩ := mem_bodySeats.mp h
  rw [hi]
  rfl

theorem first_ne_bodySeats {step body : Step} {items : List Item} (h : step ≠ body) :
    ∀ q ∈ bodySeats (some body) items, step ≠ q.1.first :=
  fun q hq => by rwa [first_bodySeats hq]

theorem first_childSeats {c : Nat → Child} {items : List Item} (h : p ∈ childSeats c items) :
    ∃ i, p.1.first = .child (c i) := by
  obtain ⟨i, _, hi⟩ := mem_childSeats.mp h
  rw [hi]
  exact ⟨i, rfl⟩

theorem first_elifSeats {i : Nat} {b : Branch} (h : p ∈ elifSeats i b) :
    p.1.first = .child (.elifCond i) ∨ p.1.first = .elifBody i := by
  rcases List.mem_cons.mp h with rfl | h
  · exact .inl rfl
  · exact .inr (first_bodySeats h)

theorem parting_elifSeats (elifs : List Branch) :
    Parting (elifs.zipIdx.flatMap fun (b, i) => elifSeats i b) := by
  refine parting_zipIdx (f := fun b i => elifSeats i b) (fun b i => ?_) ?_
  · exact .cons (first_ne_bodySeats Step.noConfusion) (parting_bodySeats _ _)
  · intro b b' i j hij p hp q hq
    refine Seat.apart_of_first ?_
    rcases first_elifSeats hp with hp | hp <;> rcases first_elifSeats hq with hq | hq <;>
      simp [hp, hq, hij]

theorem Item.parting_seats (x : Item) : Parting x.seats := by
  have hempty : Parting [] := List.Pairwise.nil
  have hbody (step : Step) (items : List Item) : Parting (bodySeats (some step) items) :=
    parting_bodySeats _ items
  cases x with
  | function | mod | closure => exact hbody _ _
  | varDecl | varSet | returnValue => exact .cons (by simp) hempty
  | ifElif cond body elifs otherwise =>
    have helif {p : Seat × Item} (hp : p ∈ elifs.zipIdx.flatMap fun (b, i) => elifSeats i b) :
        ∃ i, p.1.first = .child (.elifCond i) ∨ p.1.first = .elifBody i := by
      obtain ⟨i, b, _, hp⟩ := mem_elifSeats.mp hp
      exact ⟨i, first_elifSeats hp⟩
    refine .append (.append (.cons (first_ne_bodySeats Step.noConfusion) (hbody _ _))
      (parting_elifSeats elifs) ?_) (hbody _ _) ?_
    · intro p hp q hq
      obtain ⟨i, hq⟩ := helif hq
      rcases List.mem_cons.mp hp with rfl | hp
      · rcases hq with hq | hq <;> simp [hq]
      · rcases hq with hq | hq <;> simp [hq, first_bodySeats hp]
    · intro p hp
      refine first_ne_bodySeats ?_
      rcases List.mem_append.mp hp with hp | hp
      · rcases List.mem_cons.mp hp with rfl | hp
        · exact Step.noConfusion
        · simp [first_bodySeats hp]
      · obtain ⟨i, hp | hp⟩ := helif hp <;> simp [hp]
  | whileLoop | forIn => exact .cons (first_ne_bodySeats Step.noConfusion) (hbody _ _)
  | forRange =>
    refine .cons ?_ (.cons ?_ (.cons (first_ne_bodySeats Step.noConfusion) (hbody _ _)))
    · simpa using first_ne_bodySeats Step.noConfusion
    · simpa using first_ne_bodySeats Step.noConfusion
  | call =>
    refine .cons (fun q hq => ?_) (parting_childSeats (fun _ _ => Child.callArg.inj) _)
    obtain ⟨i, hi⟩ := first_childSeats hq
    simp [hi]
  | array => exact parting_childSeats (fun _ _ => Child.element.inj) _
  | format => exact parting_childSeats (fun _ _ => Child.formatValue.inj) _
  | binary => exact .cons (by simp) (.cons (by simp) hempty)
  | missing | externs | breakLoop | continueLoop | ident | bool | integer | decimal | string =>
    exact hempty

theorem Item.prefix_of_mem_sites (h : site ∈ x.sites path) : path <+: site.parent := by
  induction x using Item.induction_seats generalizing path with
  | step x ih =>
    rw [Item.sites_eq, List.mem_flatMap] at h
    obtain ⟨⟨seat, y⟩, hy, hs⟩ := h
    rcases List.mem_cons.mp hs with rfl | hs
    · exact List.prefix_rfl
    · exact (List.prefix_append path seat.steps).trans (ih _ hy hs)

/-- The sites of a seat lie behind it. -/
theorem prefix_of_mem_seatSites (h : site ∈ seatSites path p) :
    path ++ p.1.steps <+: site.path := by
  rcases List.mem_cons.mp h with rfl | h
  · exact List.prefix_rfl
  · exact (Item.prefix_of_mem_sites h).trans (List.prefix_append _ _)

theorem Site.path_ne_of_mem_sites (h : site ∈ x.sites path) : site.path ≠ path := by
  intro he
  obtain ⟨rest, hrest⟩ := Item.prefix_of_mem_sites h
  obtain ⟨more, hmore⟩ := site.seat.exists_steps_eq
  have hlength := congrArg List.length he
  rw [Site.path, ← hrest, hmore] at hlength
  simp at hlength

/-- Where the ways part, the sites have different paths if they do below each seat. -/
theorem Parting.nodup_paths (hs : Parting seats)
    (h : ∀ p ∈ seats, ((p.2.sites (path ++ p.1.steps)).map Site.path).Nodup) :
    ((seats.flatMap (seatSites path)).map Site.path).Nodup := by
  rw [List.map_flatMap, List.nodup_flatMap]
  refine ⟨fun p hp => List.nodup_cons.mpr ⟨?_, h p hp⟩, hs.imp fun {p q} hpq => ?_⟩
  · intro hm
    obtain ⟨site, hsite, he⟩ := List.mem_map.mp hm
    exact Site.path_ne_of_mem_sites hsite he
  · intro way hp hq
    obtain ⟨site, hsite, rfl⟩ := List.mem_map.mp hp
    obtain ⟨other, hother, he⟩ := List.mem_map.mp hq
    obtain ⟨m, hm⟩ := prefix_of_mem_seatSites hsite
    obtain ⟨n, hn⟩ := prefix_of_mem_seatSites hother
    rw [he, ← hm, List.append_assoc, List.append_assoc, List.append_cancel_left_eq] at hn
    exact hpq m n hn.symm

theorem Item.nodup_paths (path : Path) (x : Item) : ((x.sites path).map Site.path).Nodup := by
  induction x using Item.induction_seats generalizing path with
  | step x ih =>
    rw [Item.sites_eq]
    exact x.parting_seats.nodup_paths fun p hp => ih p hp _

/-- Every site of a program has a path of its own. -/
theorem Program.nodup_paths (program : Program) : (program.sites.map Site.path).Nodup :=
  (parting_bodySeats none program.items).nodup_paths fun p _ => p.2.nodup_paths _

end
end RustLua.Ir
