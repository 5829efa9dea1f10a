import RustLua.Proofs.Ir.Seats

/-! # Problems are the broken conditions

Each node asks for something of its own: names, parameters, an operator, the numbers of a
format. And each seat that must not be empty asks for a node. The problems of a program are
those conditions that do not hold, each reported once, in the order of the sites. -/
namespace RustLua.Ir

/-! ## Conditions -/

/-- What is asked of a node or of a seat, with what the report of its defect needs. -/
inductive Condition where
  | there (otherwise : Defect) (x : Item)
  | named (what : Named) (name : Bytes)
  | parameter (function : Option Bytes) (i : Nat) (name : Bytes)
  | someNames (names : List Bytes)
  | known (op : BinaryOp)
  | plain (op : BinaryOp)
  | fragmentCount (fragments slots : Nat)
  | valueCount (values slots : Nat)
  | slotRange (i : Nat) (slot : Int) (values : Nat)

def Condition.Holds : Condition → Prop
  | .there _ x => x ≠ .missing
  | .named _ name => Unicode.isBlankText name = false
  | .parameter _ _ name => name ≠ []
  | .someNames names => names ≠ []
  | .known op => op.isKnown = true
  | .plain op => op.isCompound = false
  | .fragmentCount fragments slots => fragments = slots + 1
  | .valueCount values slots => values ≤ slots
  | .slotRange _ slot values => 1 ≤ slot ∧ slot ≤ values

/-- The defect of whatever breaks a condition. -/
def Condition.defect : Condition → Defect
  | .there otherwise _ => otherwise
  | .named what _ => .blankName what
  | .parameter function i _ => .emptyParameter function i
  | .someNames _ => .noExterns
  | .known op => .unknownOperator op
  | .plain op => .compoundOperator op
  | .fragmentCount fragments slots => .fragmentCount fragments slots
  | .valueCount values slots => .valueCount values slots
  | .slotRange i slot values => .slotRange i slot values

instance Item.decidableMissing : (x : Item) → Decidable (x = .missing)
  | .missing => isTrue rfl
  | .function .. | .varDecl .. | .varSet .. | .externs .. | .mod .. | .breakLoop | .continueLoop
  | .returnValue .. | .ifElif .. | .whileLoop .. | .forRange .. | .forIn .. | .call .. | .ident ..
  | .bool .. | .integer .. | .decimal .. | .string .. | .closure .. | .array .. | .binary ..
  | .format .. => isFalse Item.noConfusion

instance Condition.decidableHolds : (c : Condition) → Decidable c.Holds
  | .there _ x => inferInstanceAs (Decidable (x ≠ .missing))
  | .named _ name => inferInstanceAs (Decidable (Unicode.isBlankText name = false))
  | .parameter _ _ name => inferInstanceAs (Decidable (name ≠ []))
  | .someNames names => inferInstanceAs (Decidable (names ≠ []))
  | .known op => inferInstanceAs (Decidable (op.isKnown = true))
  | .plain op => inferInstanceAs (Decidable (op.isCompound = false))
  | .fragmentCount fragments slots => inferInstanceAs (Decidable (fragments = slots + 1))
  | .valueCount values slots => inferInstanceAs (Decidable (values ≤ slots))
  | .slotRange _ slot values => inferInstanceAs (Decidable (1 ≤ slot ∧ slot ≤ values))

def parameterConditions (function : Option Bytes) (params : List Bytes) : List Condition :=
  params.zipIdx.map fun (name, i) => .parameter function i name

/-- What a node asks for itself, without its seats. -/
def Item.conditions : Item → List Condition
  | .function name params _ => .named .function name :: parameterConditions (some name) params
  | .varDecl name _ => [.named .varDecl name]
  | .varSet name _ => [.named .varSet name]
  | .externs names => .someNames names :: names.map (.named .externName)
  | .mod name _ => [.named .mod name]
  | .forRange var _ _ _ _ => [.named .rangeVar var]
  | .forIn var _ _ => [.named .inVar var]
  | .ident name => [.named .ident name]
  | .closure params _ => parameterConditions none params
  | .binary op _ _ => [.known op, .plain op]
  | .format fragments slots values =>
    .fragmentCount fragments.length slots.length :: .valueCount values.length slots.length ::
      slots.zipIdx.map fun (slot, i) => .slotRange i slot values.length
  | .missing | .breakLoop | .continueLoop | .returnValue _ | .ifElif .. | .whileLoop .. | .call ..
  | .bool _ | .integer _ | .decimal _ | .string _ | .array _ => []

/-- All that is asked at a site, each with the path of the node that it is asked of: an item
of a body is missed where it should stand, a child by its parent. -/
def Site.conditions (site : Site) : List (Path × Condition) :=
  (match site.seat with
    | .item _ _ => [(site.path, .there .missingItem site.item)]
    | .required c => [(site.parent, .there (.missingChild c) site.item)]
    | .optional _ => []) ++ site.item.conditions.map (site.path, ·)

/-- The problems of the conditions that do not hold. -/
def broken (conditions : List (Path × Condition)) : List Problem :=
  (conditions.filter fun p => ¬ p.2.Holds).map fun p => ⟨p.1, p.2.defect⟩

section
variable {path : Path} {x : Item} {p : Seat × Item} {conditions more : List (Path × Condition)}

@[simp] theorem broken_nil : broken [] = [] := rfl

@[simp] theorem broken_append : broken (conditions ++ more) = broken conditions ++ broken more := by
  simp [broken]

theorem broken_flatMap {α : Type} {l : List α} {f : α → List (Path × Condition)} :
    broken (l.flatMap f) = l.flatMap fun a => broken (f a) := by
  simp [broken, List.filter_flatMap, List.map_flatMap]

theorem broken_cons {c : Condition} : broken ((path, c) :: more) =
    (if c.Holds then [] else [⟨path, c.defect⟩]) ++ broken more := by
  by_cases h : c.Holds <;> simp [broken, h]

theorem broken_eq_nil_iff : broken conditions = [] ↔ ∀ p ∈ conditions, p.2.Holds := by
  simp [broken, List.filter_eq_nil_iff]

/-! ## One node -/

theorem map_defectIf {condition : Bool} {c : Condition} (h : condition = true ↔ ¬ c.Holds) :
    (defectIf condition c.defect).map (⟨path, ·⟩) = broken [(path, c)] := by
  rw [broken_cons, defectIf]
  by_cases hc : c.Holds <;> simp [h, hc]

/-- One condition for each element of a list. -/
theorem map_defectsIf {α : Type} (l : List α) {condition : α → Bool} {c : α → Condition}
    (h : ∀ a, condition a = true ↔ ¬ (c a).Holds) :
    (l.flatMap fun a => defectIf (condition a) (c a).defect).map (⟨path, ·⟩) =
      broken ((l.map c).map (path, ·)) := by
  rw [List.map_map, List.map_eq_flatMap (f := _ ∘ c), broken_flatMap, List.map_flatMap]
  exact List.flatMap_congr fun a _ => map_defectIf (h a)

theorem map_paramDefects (function : Option Bytes) (params : List Bytes) :
    (paramDefects function params).map (⟨path, ·⟩) =
      broken ((parameterConditions function params).map (path, ·)) :=
  map_defectsIf params.zipIdx (c := fun p => .parameter function p.2 p.1)
    fun p => by simp [Condition.Holds]

theorem map_nameDefects (what : Named) (name : Bytes) :
    (nameDefects what name).map (⟨path, ·⟩) = broken [(path, .named what name)] :=
  map_defectIf (c := .named what name) (by simp [Condition.Holds])

/-- A node reports its own conditions, as far as they do not hold. -/
theorem Item.map_defects (hx : x ≠ .missing) (path : Path) :
    x.defects.map (⟨path, ·⟩) = broken (x.conditions.map (path, ·)) := by
  cases x with
  | missing => exact absurd rfl hx
  | function name params =>
    rw [Item.defects, Item.conditions, List.map_append, map_nameDefects, map_paramDefects,
      ← broken_append]
    rfl
  | varDecl | varSet | mod | forRange | forIn | ident => exact map_nameDefects _ _
  | externs names =>
    have hsome : (defectIf names.isEmpty .noExterns).map (⟨path, ·⟩) =
        broken [(path, .someNames names)] :=
      map_defectIf (c := .someNames names) (by simp [Condition.Holds])
    have hnames : (names.flatMap (nameDefects .externName)).map (⟨path, ·⟩) =
        broken ((names.map (.named .externName)).map (path, ·)) :=
      map_defectsIf names (c := .named .externName) fun name => by simp [Condition.Holds]
    rw [Item.defects, Item.conditions, List.map_append, hsome, hnames, ← broken_append]
    rfl
  | closure params => exact map_paramDefects none params
  | binary op =>
    have hknown : (defectIf (!op.isKnown) (.unknownOperator op)).map (⟨path, ·⟩) =
        broken [(path, .known op)] := map_defectIf (c := .known op) (by simp [Condition.Holds])
    have hplain : (defectIf op.isCompound (.compoundOperator op)).map (⟨path, ·⟩) =
        broken [(path, .plain op)] := map_defectIf (c := .plain op) (by simp [Condition.Holds])
    rw [Item.defects, operatorDefects, List.map_append, hknown, hplain, ← broken_append]
    rfl
  | format fragments slots values =>
    have hfragments : (defectIf (fragments.length ≠ slots.length + 1)
          (.fragmentCount fragments.length slots.length)).map (⟨path, ·⟩) =
        broken [(path, .fragmentCount fragments.length slots.length)] :=
      map_defectIf (c := .fragmentCount fragments.length slots.length) (by simp [Condition.Holds])
    have hvalues : (defectIf (slots.length < values.length)
          (.valueCount values.length slots.length)).map (⟨path, ·⟩) =
        broken [(path, .valueCount values.length slots.length)] :=
      map_defectIf (c := .valueCount values.length slots.length) (by simp [Condition.Holds])
    have hslots : (slots.zipIdx.flatMap fun (slot, i) =>
          defectIf (slot < 1 || (values.length : Int) < slot)
            (.slotRange i slot values.length)).map (⟨path, ·⟩) =
        broken ((slots.zipIdx.map fun (slot, i) => .slotRange i slot values.length).map
          (path, ·)) :=
      map_defectsIf slots.zipIdx (c := fun p => .slotRange p.2 p.1 values.length)
        fun p => by simp [Condition.Holds]; omega
    rw [Item.defects, formatDefects, List.map_append, List.map_append, hfragments, hvalues,
      hslots, ← broken_append, ← broken_append]
    rfl
  | breakLoop | continueLoop | returnValue | ifElif | whileLoop | call | bool | integer | decimal
  | string | array => rfl

/-- The problems of what stands in a seat of the node at a path. -/
def seatProblems (path : Path) (p : Seat × Item) : List Problem :=
  match p.1 with
  | .item _ _ => itemProblems (path ++ p.1.steps) p.2
  | .required c => required path c p.2 (itemProblems (path ++ p.1.steps) p.2)
  | .optional _ => optional p.2 (itemProblems (path ++ p.1.steps) p.2)

theorem bodyProblems_eq (path : Path) (body : Option Step) (items : List Item) :
    bodyProblems (path ++ body.toList) 0 items =
      (bodySeats body items).flatMap (seatProblems path) := by
  have hfrom (k : Nat) : bodyProblems (path ++ body.toList) k items =
      (items.zipIdx k).flatMap fun q => seatProblems path (.item body q.2, q.1) := by
    induction items generalizing k with
    | nil => rfl
    | cons x items ih =>
      rw [bodyProblems, ih, List.zipIdx_cons, List.flatMap_cons, List.append_assoc]
      rfl
  rw [hfrom, bodySeats, List.flatMap_map]

theorem eachProblems_eq (path : Path) (c : Nat → Child) (items : List Item) :
    eachProblems path c 0 items = (childSeats c items).flatMap (seatProblems path) := by
  have hfrom (k : Nat) : eachProblems path c k items =
      (items.zipIdx k).flatMap fun q => seatProblems path (.required (c q.2), q.1) := by
    induction items generalizing k with
    | nil => rfl
    | cons x items ih =>
      rw [eachProblems, ih, List.zipIdx_cons, List.flatMap_cons]
      rfl
  rw [hfrom, childSeats, List.flatMap_map]

theorem elifProblems_eq (path : Path) (elifs : List Branch) :
    elifProblems path 0 elifs =
      (elifs.zipIdx.flatMap fun (b, i) => elifSeats i b).flatMap (seatProblems path) := by
  have hfrom (k : Nat) : elifProblems path k elifs =
      (elifs.zipIdx k).flatMap fun q => (elifSeats q.2 q.1).flatMap (seatProblems path) := by
    induction elifs generalizing k with
    | nil => rfl
    | cons b elifs ih =>
      cases b with
      | mk cond body =>
        have hbody := bodyProblems_eq path (some (.elifBody k)) body
        rw [Option.toList_some] at hbody
        rw [elifProblems, ih, hbody, List.zipIdx_cons, List.flatMap_cons]
        rfl
  rw [hfrom, List.flatMap_assoc]

theorem elseProblems_eq (path : Path) (otherwise : Option (List Item)) :
    elseProblems path otherwise =
      (bodySeats (some .elseBody) (otherwise.getD [])).flatMap (seatProblems path) := by
  cases otherwise with
  | none => rfl
  | some body => exact bodyProblems_eq path (some .elseBody) body

/-- A node reports its own defects and then, seat by seat, what stands below it. -/
theorem itemProblems_eq (path : Path) (x : Item) :
    itemProblems path x =
      x.defects.map (⟨path, ·⟩) ++ x.seats.flatMap (seatProblems path) := by
  have hbody (step : Step) (items : List Item) : bodyProblems (path ++ [step]) 0 items =
      (bodySeats (some step) items).flatMap (seatProblems path) :=
    bodyProblems_eq path (some step) items
  cases x with
  | function | mod | closure => rw [itemProblems, hbody]; rfl
  | varDecl | varSet | returnValue | binary =>
    rw [itemProblems]
    simp [Item.seats, seatProblems, Seat.steps, Path.child]
  | ifElif =>
    rw [itemProblems, hbody, elifProblems_eq, elseProblems_eq]
    simp [Item.seats, seatProblems, Seat.steps, Path.child]
  | whileLoop | forIn | forRange =>
    rw [itemProblems, hbody]
    simp [Item.seats, seatProblems, Seat.steps, Path.child]
  | call =>
    rw [itemProblems, eachProblems_eq]
    simp [Item.seats, seatProblems, Seat.steps, Path.child]
  | array | format => rw [itemProblems, eachProblems_eq]; rfl
  | missing | externs | breakLoop | continueLoop | ident | bool | integer | decimal | string =>
    simp [itemProblems, Item.seats]

theorem seatProblems_of_ne (hx : x ≠ .missing) (seat : Seat) :
    seatProblems path (seat, x) = itemProblems (path ++ seat.steps) x := by
  cases seat <;> cases x <;> first | rfl | exact absurd rfl hx

theorem broken_site_missing (path : Path) (seat : Seat) :
    broken (Site.conditions ⟨path, seat, .missing⟩) = seatProblems path (seat, .missing) := by
  cases seat <;> simp [Site.conditions, Site.path, broken_cons, Condition.Holds, Condition.defect,
    Item.conditions, seatProblems, itemProblems_eq, Item.defects, Item.seats, required, optional]

theorem broken_site_of_ne (hx : x ≠ .missing) (path : Path) (seat : Seat) :
    broken (Site.conditions ⟨path, seat, x⟩) = x.defects.map (⟨path ++ seat.steps, ·⟩) := by
  rw [Item.map_defects hx]
  cases seat <;> simp [Site.conditions, Site.path, broken_cons, Condition.Holds, hx]

/-! ## All nodes -/

/-- What stands in a seat has the problems of its sites. -/
theorem seatProblems_eq_broken (path : Path) (p : Seat × Item) :
    seatProblems path p = broken ((seatSites path p).flatMap Site.conditions) := by
  obtain ⟨seat, x⟩ := p
  induction x using Item.induction_seats generalizing path seat with
  | step x ih =>
    have hbelow (path : Path) : x.seats.flatMap (seatProblems path) =
        broken ((x.sites path).flatMap Site.conditions) := by
      rw [Item.sites_eq, List.flatMap_assoc, broken_flatMap]
      exact List.flatMap_congr fun p hp => ih p hp path p.1
    rw [seatSites, List.flatMap_cons, broken_append, ← hbelow]
    by_cases hx : x = .missing
    · subst hx
      rw [broken_site_missing, Item.seats, List.flatMap_nil, List.append_nil]
    · rw [broken_site_of_ne hx, seatProblems_of_ne hx, itemProblems_eq]

theorem Program.problems_eq_broken (program : Program) :
    program.problems = broken (program.sites.flatMap Site.conditions) := by
  have hbody : program.problems = (bodySeats none program.items).flatMap (seatProblems []) :=
    bodyProblems_eq [] none program.items
  rw [hbody, Program.sites, List.flatMap_assoc, broken_flatMap]
  exact List.flatMap_congr fun _ _ => seatProblems_eq_broken _ _

end

/-! ## Sound programs -/

/-- What a node is held to: names that are not blank, parameters that are not empty, an
operator that is no assignment, and a format whose numbers agree. -/
def Item.Sound : Item → Prop
  | .function name params _ => Unicode.isBlankText name = false ∧ ∀ p ∈ params, p ≠ []
  | .closure params _ => ∀ p ∈ params, p ≠ []
  | .varDecl name _ | .varSet name _ | .mod name _ | .ident name | .forRange name _ _ _ _
  | .forIn name _ _ => Unicode.isBlankText name = false
  | .externs names => names ≠ [] ∧ ∀ name ∈ names, Unicode.isBlankText name = false
  | .binary op _ _ => op.isKnown = true ∧ op.isCompound = false
  | .format fragments slots values =>
    fragments.length = slots.length + 1 ∧ values.length ≤ slots.length ∧
      ∀ slot ∈ slots, 1 ≤ slot ∧ slot ≤ values.length
  | .missing | .breakLoop | .continueLoop | .returnValue _ | .ifElif .. | .whileLoop .. | .call ..
  | .bool _ | .integer _ | .decimal _ | .string _ | .array _ => True

/-- A site is held to have a node, if it is not of the kind that may be left out, and a
sound one. -/
def Site.Sound (site : Site) : Prop :=
  (site.item = .missing → ∃ step, site.seat = .optional step) ∧ site.item.Sound

theorem forall_mem_zipIdx {α : Type} {l : List α} {P : α → Prop} :
    (∀ p ∈ l.zipIdx, P p.1) ↔ ∀ a ∈ l, P a := by
  conv_rhs => rw [← List.zipIdx_map_fst 0 l]
  rw [List.forall_mem_map]

theorem Item.sound_iff (x : Item) : x.Sound ↔ ∀ c ∈ x.conditions, c.Holds := by
  cases x with
  | function _ params | closure params =>
    have hparams := forall_mem_zipIdx (l := params) (P := (· ≠ []))
    simp only [Item.Sound, Item.conditions, parameterConditions, List.forall_mem_cons,
      List.forall_mem_map, Condition.Holds, hparams]
  | format fragments slots values =>
    have hslots := forall_mem_zipIdx (l := slots)
      (P := fun slot => 1 ≤ slot ∧ slot ≤ values.length)
    simp only [Item.Sound, Item.conditions, List.forall_mem_cons, List.forall_mem_map,
      Condition.Holds, hslots]
  | _ => simp [Item.Sound, Item.conditions, Condition.Holds]

theorem Site.sound_iff (site : Site) : site.Sound ↔ ∀ p ∈ site.conditions, p.2.Holds := by
  obtain ⟨parent, seat, x⟩ := site
  rw [Site.Sound, Item.sound_iff, Site.conditions, List.forall_mem_append, List.forall_mem_map]
  cases seat <;> simp [Condition.Holds]

theorem Program.problems_eq_nil_iff (program : Program) :
    program.problems = [] ↔ ∀ site, program.Has site → site.Sound := by
  rw [program.problems_eq_broken, broken_eq_nil_iff, List.forall_mem_flatMap]
  simp only [← Site.sound_iff, Program.mem_sites_iff]

/-- A unit is accepted exactly if it is there and every site of its program, at any depth, is
sound. Otherwise there is one text for each condition that does not hold, in the order of the
sites, which lists each of them once; it starts with the path of the node that is at fault. -/
theorem problems_are_broken_conditions (unit : Option Program) :
    (problemTexts unit = [] ↔
      ∃ program, unit = some program ∧ ∀ site, program.Has site → site.Sound) ∧
    (unit = none → problemTexts unit = [Bytes.ofString "nil unit"]) ∧
    ∀ program, unit = some program →
      ((∀ site, site ∈ program.sites ↔ program.Has site) ∧
        (program.sites.map Site.path).Nodup) ∧
      problemTexts unit =
        ((program.sites.flatMap Site.conditions).filter fun p => ¬ p.2.Holds).map fun p =>
          p.1.text ++ Bytes.ofString ": " ++ p.2.defect.text := by
  cases unit with
  | none => simp [problemTexts]
  | some program =>
    refine ⟨?_, by simp, ?_⟩
    · simp [problemTexts, program.problems_eq_nil_iff]
    · rintro _ ⟨⟩
      refine ⟨⟨fun site => Program.mem_sites_iff, program.nodup_paths⟩, ?_⟩
      rw [problemTexts, program.problems_eq_broken, broken, List.map_map]
      rfl

end RustLua.Ir
