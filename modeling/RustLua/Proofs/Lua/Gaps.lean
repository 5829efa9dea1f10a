import RustLua.Proofs.Lua.Uses

/-! # Where rendering ends in a gap

A node refuses to be rendered for reasons that it and its use show by themselves. Every gap
comes from a refusal, however deep, and one refusal among all that is rendered is enough. -/
namespace RustLua.Lua

open Ir (Item Branch Seat Program)

/-- What a statement is called where it is used as a value. -/
def statementName? : Item → Option String
  | .function _ _ _ => some "function definition"
  | .varDecl _ _ => some "local declaration"
  | .varSet _ _ => some "assignment"
  | .externs _ => some "extern block"
  | .mod _ _ => some "module"
  | .breakLoop => some "break"
  | .continueLoop => some "continue"
  | .returnValue _ => some "return"
  | .ifElif _ _ _ _ => some "if"
  | .whileLoop _ _ => some "while"
  | .forRange _ _ _ _ _ | .forIn _ _ _ => some "for"
  | _ => none

/-- The reasons for which a node cannot be rendered itself, and the gaps that they are. -/
inductive Refuses : Use → Item → Gap → Prop
  | noStatement {inLoop : Bool} : Refuses (.statement inLoop) .missing .noStatement
  | noExpression : Refuses .value .missing .noExpression
  | usedAsValue {x : Item} {what : String} (h : statementName? x = some what) :
      Refuses .value x (.usedAsValue what)
  | breakOutside : Refuses (.statement false) .breakLoop .breakOutside
  | continueOutside : Refuses (.statement false) .continueLoop .continueOutside
  | emptyIdentifier {u : Use} : Refuses u (.ident []) .emptyIdentifier
  | compoundOperator {u : Use} {op : Ir.BinaryOp} {lhs rhs : Item} (h : op.isCompound = true) :
      Refuses u (.binary op lhs rhs) (.compoundOperator op)
  | unknownOperator {u : Use} {op : Ir.BinaryOp} {lhs rhs : Item} (h : op.isKnown = false) :
      Refuses u (.binary op lhs rhs) (.unknownOperator op)
  | fragmentCount {u : Use} {fragments : List Bytes} {slots : List Int} {values : List Item}
      (h : fragments.length ≠ slots.length + 1) :
      Refuses u (.format fragments slots values) (.fragmentCount fragments.length slots.length)
  | valueCount {u : Use} {fragments : List Bytes} {slots : List Int} {values : List Item}
      (h : slots.length < values.length) :
      Refuses u (.format fragments slots values) (.valueCount values.length slots.length)
  | slotWithoutValue {u : Use} {fragments : List Bytes} {slots : List Int} {values : List Item}
      {slot : Int} (hs : slot ∈ slots) (h : slot < 1 ∨ values.length < slot) :
      Refuses u (.format fragments slots values) (.slotWithoutValue slot values.length)

section
variable {s : Settings} {place : Place} {x y : Item} {items : List Item} {g : Gap} {u : Use}
  {depth : Nat}

/-! ## Refusals are gaps -/

theorem operatorOf_eq_error_iff {op : Ir.BinaryOp} : operatorOf op = .error g ↔
    op.isCompound = true ∧ g = .compoundOperator op ∨
      op.isKnown = false ∧ g = .unknownOperator op := by
  cases op <;>
    simp [operatorOf, Operator.ofIr?, Ir.BinaryOp.isCompound, Ir.BinaryOp.isKnown, eq_comm]

/-- The numbers of a format agree where it is rendered. -/
theorem numbers_of_renderItem_format {fragments : List Bytes} {slots : List Int}
    {values : List Item} {pieces : Pieces}
    (h : renderItem s place (.format fragments slots values) = .ok pieces) :
    fragments.length = slots.length + 1 ∧ values.length ≤ slots.length ∧
      ∀ k ∈ slots, 1 ≤ k ∧ k ≤ values.length := by
  simp only [renderItem, bind_eq_ok, formatPieces_eq_ok_iff, length_renderEach] at h
  obtain ⟨_, ⟨hf, hv, args, hargs, _⟩, _⟩ := h
  refine ⟨hf, hv, fun k hk => ?_⟩
  obtain ⟨h1, p, _, hp⟩ := exists_slotArgument hargs hk
  have hlt := (List.getElem?_eq_some_iff.mp hp).1
  rw [length_renderEach] at hlt
  omega

/-- What refuses to be rendered gives no pieces. Another of its refusals may come first. -/
theorem Refuses.not_gives {pieces : Pieces} (h : Refuses u x g) : ¬ Gives s u x (.ok pieces) := by
  rintro ⟨place, hu, hr⟩
  cases h with
  | noStatement | noExpression => cases place <;> cases hr
  | usedAsValue h =>
    cases place with
    | statement => cases hu
    | value => cases x <;> cases h <;> cases hr
  | breakOutside | continueOutside =>
    cases place with
    | value => cases hu
    | statement depth last =>
      have hd : depth = 0 := by simpa [Place.use] using hu
      subst hd
      cases hr
  | emptyIdentifier => cases hr
  | compoundOperator h =>
    simp only [renderItem, operatorOf_eq_error_iff.mpr (.inl ⟨h, rfl⟩)] at hr
    cases hr
  | unknownOperator h =>
    simp only [renderItem, operatorOf_eq_error_iff.mpr (.inr ⟨h, rfl⟩)] at hr
    cases hr
  | fragmentCount h => exact h (numbers_of_renderItem_format hr).1
  | valueCount h => exact Nat.not_le.mpr h (numbers_of_renderItem_format hr).2.1
  | slotWithoutValue hs h =>
    have hslot := (numbers_of_renderItem_format hr).2.2 _ hs
    omega

/-! ## Gaps come from refusals -/

theorem exists_renderBody_error {endsBlock : Bool}
    (h : renderBody s depth endsBlock items = .error g) :
    ∃ y ∈ items, Gives s (.statement (depth ≠ 0)) y (.error g) := by
  induction items with
  | nil => cases h
  | cons first rest ih =>
    simp only [renderBody, bind_eq_error] at h
    obtain h | ⟨_, _, h | ⟨_, _, h⟩⟩ := h
    · exact ⟨first, by simp, .statement depth _, rfl, h⟩
    · obtain ⟨y, hy, hr⟩ := ih h
      exact ⟨y, by simp [hy], hr⟩
    · cases h

theorem exists_renderElifs_error {elifs : List Branch} (h : renderElifs s depth elifs = .error g) :
    ∃ b ∈ elifs, renderItem s .value b.cond = .error g ∨
      renderBody s depth true b.body = .error g := by
  induction elifs with
  | nil => cases h
  | cons first rest ih =>
    cases first with
    | mk cond body =>
      simp only [renderElifs, bind_eq_error] at h
      obtain h | ⟨_, _, h | ⟨_, _, h | ⟨_, _, h⟩⟩⟩ := h
      · exact ⟨.mk cond body, by simp, .inl h⟩
      · exact ⟨.mk cond body, by simp, .inr h⟩
      · obtain ⟨b, hb, hr⟩ := ih h
        exact ⟨b, by simp [hb], hr⟩
      · cases h

theorem slotArguments_error {values : List Item} {slots : List Int}
    (h : slotArguments (renderEach s values) slots = .error g) :
    (∃ k ∈ slots, (k < 1 ∨ values.length < k) ∧ g = .slotWithoutValue k values.length) ∨
      ∃ (i : Nat) (v : Item), (i : Int) + 1 ∈ slots ∧ values[i]? = some v ∧
        renderItem s .value v = .error g := by
  induction slots with
  | nil => cases h
  | cons k rest ih =>
    rw [slotArguments] at h
    by_cases hk : 1 ≤ k ∧ k ≤ values.length
    · have hlt : k.toNat - 1 < values.length := by omega
      have hv : values[k.toNat - 1]? = some values[k.toNat - 1] := List.getElem?_eq_getElem hlt
      simp only [if_neg (Int.not_lt.mpr hk.1), getElem?_renderEach, hv, Option.map_some,
        bind_eq_error] at h
      obtain h | ⟨_, _, h | ⟨_, _, h⟩⟩ := h
      · exact .inr ⟨k.toNat - 1, _, List.mem_cons.mpr (.inl (by omega)), hv, h⟩
      · refine (ih h).imp ?_ ?_
        · rintro ⟨j, hj, hg⟩
          exact ⟨j, List.mem_cons_of_mem _ hj, hg⟩
        · rintro ⟨i, v, hi, hr⟩
          exact ⟨i, v, List.mem_cons_of_mem _ hi, hr⟩
      · cases h
    · have hv : (if k < 1 then none else (renderEach s values)[k.toNat - 1]?) = none := by
        rw [ite_eq_left_iff, List.getElem?_eq_none_iff, length_renderEach]
        omega
      rw [hv, length_renderEach] at h
      cases h
      exact .inl ⟨k, by simp, by omega, rfl⟩

/-- Something that is rendered with a node has the gap. -/
def Passes (s : Settings) (place : Place) (x : Item) (g : Gap) : Prop :=
  ∃ seat y, x.Shows seat y ∧ Gives s (seat.use place.use.inLoop) y (.error g)

theorem passes_value (c : Ir.Child) (h : renderItem s .value y = .error g)
    (hy : (.required c, y) ∈ x.seats) (hc : ∀ i, c ≠ .formatValue i) : Passes s place x g :=
  ⟨.required c, y, Item.shows_required hy hc, .value, rfl, h⟩

theorem passes_optional (step : Ir.Step) (h : optionalValue y (renderItem s .value y) = .error g)
    (hy : (.optional step, y) ∈ x.seats) : Passes s place x g := by
  have hne : y ≠ .missing := by
    rintro rfl
    cases h
  have hr : renderItem s .value y = .error g := by
    cases hr : renderItem s .value y with
    | error g' =>
      rw [hr] at h
      cases y <;> cases h <;> rfl
    | ok p =>
      rw [hr] at h
      cases y <;> cases h
  exact ⟨.optional step, y, Item.shows_optional hy hne, .value, rfl, hr⟩

theorem passes_values (c : Nat → Ir.Child) (h : renderValues s items = .error g)
    (hs : Ir.childSeats c items ⊆ x.seats) (hc : ∀ i j, c i ≠ .formatValue j) :
    Passes s place x g := by
  suffices ∃ y ∈ items, renderItem s .value y = .error g by
    obtain ⟨y, hy, hr⟩ := this
    obtain ⟨i, hi⟩ := List.mem_iff_getElem?.mp hy
    exact passes_value (c i) hr (hs (Ir.mem_childSeats.mpr ⟨i, hi, rfl⟩)) (hc i)
  clear hs
  induction items with
  | nil => cases h
  | cons first rest ih =>
    simp only [renderValues, bind_eq_error] at h
    obtain h | ⟨_, _, h | ⟨_, _, h⟩⟩ := h
    · exact ⟨first, by simp, h⟩
    · obtain ⟨y, hy, hr⟩ := ih h
      exact ⟨y, by simp [hy], hr⟩
    · cases h

theorem passes_body {endsBlock : Bool} (body : Option Ir.Step)
    (h : renderBody s depth endsBlock items = .error g) (hs : Ir.bodySeats body items ⊆ x.seats)
    (hd : body.elim place.use.inLoop (·.inLoop place.use.inLoop) = decide (depth ≠ 0)) :
    Passes s place x g := by
  obtain ⟨y, hy, hr⟩ := exists_renderBody_error h
  obtain ⟨i, hi⟩ := List.mem_iff_getElem?.mp hy
  refine ⟨.item body i, y, Item.shows_item (hs (Ir.mem_bodySeats.mpr ⟨i, hi, rfl⟩)), ?_⟩
  rwa [Seat.use, hd]

theorem passes_elifs {elifs : List Branch} (h : renderElifs s depth elifs = .error g)
    (hs : elifs.zipIdx.flatMap (fun (b, i) => Ir.elifSeats i b) ⊆ x.seats)
    (hd : place.use.inLoop = decide (depth ≠ 0)) : Passes s place x g := by
  obtain ⟨b, hb, hr⟩ := exists_renderElifs_error h
  obtain ⟨i, hi⟩ := List.mem_iff_getElem?.mp hb
  have hseats : Ir.elifSeats i b ⊆ x.seats := fun _ hp => hs (Ir.mem_elifSeats.mpr ⟨i, b, hi, hp⟩)
  rcases hr with hr | hr
  · exact passes_value _ hr (hseats List.mem_cons_self) (fun _ => Ir.Child.noConfusion)
  · exact passes_body _ hr (List.Subset.trans (List.subset_cons_self _ _) hseats) hd

theorem passes_else {otherwise : Option (List Item)} (h : renderElse s depth otherwise = .error g)
    (hs : Ir.bodySeats (some .elseBody) (otherwise.getD []) ⊆ x.seats)
    (hd : place.use.inLoop = decide (depth ≠ 0)) : Passes s place x g := by
  cases otherwise with
  | none => cases h
  | some body =>
    simp only [renderElse, bind_eq_error] at h
    obtain h | ⟨_, _, h⟩ := h
    · exact passes_body _ h hs hd
    · cases h

theorem statementOnly_eq_error {what : String} {render : Nat → Bool → Except Gap Pieces}
    (h : place.statementOnly what render = .error g) (hw : statementName? x = some what)
    (hr : ∀ depth last, render depth last = .error g →
      Refuses (.statement (depth ≠ 0)) x g ∨ Passes s (.statement depth last) x g) :
    Refuses place.use x g ∨ Passes s place x g := by
  cases place with
  | value =>
    cases h
    exact .inl (.usedAsValue hw)
  | statement depth last => exact hr depth last h

/-- Step: a gap is a node's own refusal, or it comes from what is rendered with it. -/
theorem refuses_or_passes (h : renderItem s place x = .error g) :
    Refuses place.use x g ∨ Passes s place x g := by
  cases x with
  | missing =>
    cases place with
    | value => cases h; exact .inl .noExpression
    | statement => cases h; exact .inl .noStatement
  | bool | integer | decimal | string => cases h
  | ident name =>
    cases name with
    | nil => cases h; exact .inl .emptyIdentifier
    | cons => cases h
  | externs names =>
    rw [renderItem] at h
    refine statementOnly_eq_error h rfl fun depth last hr => ?_
    cases hr
  | breakLoop | continueLoop =>
    rw [renderItem] at h
    refine statementOnly_eq_error h rfl fun depth last hr => .inl ?_
    cases depth with
    | succ => cases hr
    | zero => cases hr; constructor
  | function _ _ body | mod _ body =>
    rw [renderItem] at h
    refine statementOnly_eq_error h rfl fun depth last hr => .inr ?_
    exact passes_body _ (bind_pure_eq_error.mp hr) (List.Subset.refl _) rfl
  | varDecl name value | varSet name value =>
    rw [renderItem] at h
    refine statementOnly_eq_error h rfl fun depth last hr => .inr ?_
    exact passes_value _ (bind_pure_eq_error.mp hr) List.mem_cons_self fun _ => Ir.Child.noConfusion
  | returnValue value =>
    rw [renderItem] at h
    refine statementOnly_eq_error h rfl fun depth last hr => .inr ?_
    exact passes_optional _ (bind_pure_eq_error.mp hr) List.mem_cons_self
  | ifElif cond body elifs otherwise =>
    rw [renderItem] at h
    refine statementOnly_eq_error h rfl fun depth last hr => .inr ?_
    simp only [bind_eq_error, pure_ne_error, and_false, exists_false, or_false] at hr
    obtain hr | ⟨_, _, hr | ⟨_, _, hr | ⟨_, _, hr⟩⟩⟩ := hr
    · exact passes_value .ifCond hr (by simp [Item.seats]) fun _ => Ir.Child.noConfusion
    · refine passes_body (some .thenBody) hr (fun p hp => ?_) rfl
      simp [Item.seats, hp]
    · refine passes_elifs hr (fun p hp => ?_) rfl
      simp only [Item.seats, List.mem_append, hp, or_true, true_or]
    · refine passes_else hr (fun p hp => ?_) rfl
      simp only [Item.seats, List.mem_append, hp, or_true]
  | whileLoop cond body | forIn var cond body =>
    rw [renderItem] at h
    refine statementOnly_eq_error h rfl fun depth last hr => .inr ?_
    simp only [bind_eq_error, pure_ne_error, and_false, exists_false, or_false] at hr
    obtain hr | ⟨_, _, hr⟩ := hr
    · exact passes_value _ hr List.mem_cons_self fun _ => Ir.Child.noConfusion
    · exact passes_body _ hr (List.subset_cons_self _ _) rfl
  | forRange var min max step body =>
    rw [renderItem] at h
    refine statementOnly_eq_error h rfl fun depth last hr => .inr ?_
    simp only [bind_eq_error, pure_ne_error, and_false, exists_false, or_false] at hr
    obtain hr | ⟨_, _, hr | ⟨_, _, hr | ⟨_, _, hr⟩⟩⟩ := hr
    · exact passes_value .rangeMin hr (by simp [Item.seats]) fun _ => Ir.Child.noConfusion
    · exact passes_value .rangeMax hr (by simp [Item.seats]) fun _ => Ir.Child.noConfusion
    · exact passes_optional .rangeStep hr (by simp [Item.seats])
    · refine passes_body (some .rangeBody) hr (fun p hp => ?_) rfl
      simp [Item.seats, hp]
  | call func args =>
    simp only [renderItem, bind_eq_error, pure_ne_error, and_false, exists_false, or_false] at h
    obtain h | ⟨_, _, h⟩ := h
    · exact .inr (passes_value _ h List.mem_cons_self fun _ => Ir.Child.noConfusion)
    · exact .inr (passes_values _ h (List.subset_cons_self _ _) fun _ _ => Ir.Child.noConfusion)
  | closure params body =>
    rw [renderItem] at h
    exact .inr (passes_body _ (bind_pure_eq_error.mp h) (List.Subset.refl _) rfl)
  | array elements =>
    rw [renderItem] at h
    exact .inr (passes_values _ (bind_pure_eq_error.mp h) (List.Subset.refl _) fun _ _ => Ir.Child.noConfusion)
  | binary op lhs rhs =>
    simp only [renderItem, bind_eq_error, pure_ne_error, and_false, exists_false, or_false] at h
    obtain h | ⟨_, _, h | ⟨_, _, h⟩⟩ := h
    · obtain ⟨hop, rfl⟩ | ⟨hop, rfl⟩ := operatorOf_eq_error_iff.mp h
      · exact .inl (.compoundOperator hop)
      · exact .inl (.unknownOperator hop)
    · exact .inr (passes_value .lhs h (by simp [Item.seats]) fun _ => Ir.Child.noConfusion)
    · exact .inr (passes_value .rhs h (by simp [Item.seats]) fun _ => Ir.Child.noConfusion)
  | format fragments slots values =>
    rw [renderItem, bind_pure_eq_error, formatPieces] at h
    split at h
    next hf => cases h; exact .inl (.fragmentCount hf)
    next =>
      split at h
      next hv =>
        rw [length_renderEach] at h hv
        cases h
        exact .inl (.valueCount hv)
      next =>
        rw [bind_pure_eq_error] at h
        obtain ⟨k, hk, hout, rfl⟩ | ⟨i, v, hi, hv, hr⟩ := slotArguments_error h
        · exact .inl (.slotWithoutValue hk hout)
        · refine .inr ⟨.required (.formatValue i), v, ⟨?_, fun _ => Seat.noConfusion, ?_⟩, .value,
            rfl, hr⟩
          · exact Ir.mem_childSeats.mpr ⟨i, hv, rfl⟩
          · rintro _ _ _ j ⟨⟩ ⟨⟩
            exact hi

/-- Run: every gap is the refusal of something that is rendered. -/
theorem exists_refuses (h : Gives s u x (.error g)) :
    ∃ v y, Ir.Reaches u x v y ∧ Refuses v y g := by
  induction x using Item.induction_seats generalizing u with
  | step x ih =>
    obtain ⟨place, rfl, hr⟩ := h
    obtain h | ⟨seat, y, hy, hr⟩ := refuses_or_passes hr
    · exact ⟨_, x, .self, h⟩
    · obtain ⟨v, z, hz, hg⟩ := ih _ hy.seated hr
      exact ⟨v, z, .down hy hz, hg⟩

end

theorem renderProgram_eq_error {s : Settings} {program : Program} {g : Gap}
    (h : renderProgram s program = .error g) : ∃ u x, program.Shows u x ∧ Refuses u x g := by
  obtain ⟨i, hi, hr⟩ := exists_renderBody_error h
  obtain ⟨u, x, hx, hg⟩ := exists_refuses hr
  exact ⟨u, x, ⟨i, hi, hx⟩, hg⟩

/-- There is no Lua text exactly if there is no program, or if something that is rendered
refuses it; and the answer is then a gap for such a reason, and says so. -/
theorem generate_fails_iff_refused (s : Settings) (unit : Option Program) :
    ((∃ g, generate s unit = .error g) ↔
      unit = none ∨ ∃ program, unit = some program ∧
        ∃ u x g, program.Shows u x ∧ Refuses u x g) ∧
    ∀ g, generate s unit = .error g →
      Bytes.ofString "rendering gap: " <+: g.message ∧
      (unit = none ∧ g = .noProgram ∨ ∃ program, unit = some program ∧
        ∃ u x, program.Shows u x ∧ Refuses u x g) := by
  cases unit with
  | none =>
    refine ⟨⟨fun _ => .inl rfl, fun _ => ⟨.noProgram, rfl⟩⟩, fun g h => ?_⟩
    cases h
    exact ⟨List.prefix_append _ _, .inl ⟨rfl, rfl⟩⟩
  | some program =>
    have hrefused : ∀ g, generate s (some program) = .error g →
        ∃ u x, program.Shows u x ∧ Refuses u x g := by
      intro g h
      exact renderProgram_eq_error (map_eq_error.mp h)
    constructor
    · constructor
      · rintro ⟨g, h⟩
        obtain ⟨u, x, hx⟩ := hrefused g h
        exact .inr ⟨program, rfl, u, x, g, hx⟩
      · rintro (h | ⟨_, ⟨⟩, u, x, g, hx, hg⟩)
        · cases h
        · cases hr : renderProgram s program with
          | error g' => exact ⟨g', map_eq_error.mpr hr⟩
          | ok pieces =>
            obtain ⟨p, hp, _⟩ := carries_renderProgram hr hx
            exact absurd hp hg.not_gives
    · intro g h
      exact ⟨List.prefix_append _ _, .inr ⟨program, rfl, hrefused g h⟩⟩

end RustLua.Lua
