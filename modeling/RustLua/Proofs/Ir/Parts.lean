import RustLua.Ir.Basic

/-! # Where a node stands

`Item.parts` lists what stands directly below a node and how one gets there:
in the node's own scope, in the body of the loop that it is, or in the body of
the function that it is. `Occurs` follows parts to any depth and says of every
node below whether it stands in a loop body of its nearest function. -/
namespace RustLua.Ir

/-- How a part stands below its node. -/
inductive Way where
  | inside | loopBody | functionBody
deriving DecidableEq, Repr

/-- Is a part in a loop body of its function, its node being in one or not? -/
def Way.inLoop : Way → Bool → Bool
  | .inside, b => b
  | .loopBody, _ => true
  | .functionBody, _ => false

def Branch.cond : Branch → Item
  | .mk cond _ => cond

def Branch.body : Branch → List Item
  | .mk _ body => body

/-- All that stands directly below a node. A step or a returned value that is left out
is there as `missing`. -/
def Item.parts : Item → List (Way × Item)
  | .function _ _ body | .closure _ body => body.map (.functionBody, ·)
  | .varDecl _ value | .varSet _ value | .returnValue value => [(.inside, value)]
  | .mod _ items => items.map (.inside, ·)
  | .ifElif cond body elifs otherwise =>
    (.inside, cond) :: body.map (.inside, ·) ++
      elifs.flatMap (fun b => (.inside, b.cond) :: b.body.map (.inside, ·)) ++
      (otherwise.getD []).map (.inside, ·)
  | .whileLoop cond body => (.inside, cond) :: body.map (.loopBody, ·)
  | .forRange _ min max step body =>
    (.inside, min) :: (.inside, max) :: (.inside, step) :: body.map (.loopBody, ·)
  | .forIn _ iterated body => (.inside, iterated) :: body.map (.loopBody, ·)
  | .call func args => (.inside, func) :: args.map (.inside, ·)
  | .array elements => elements.map (.inside, ·)
  | .binary _ lhs rhs => [(.inside, lhs), (.inside, rhs)]
  | .format _ _ values => values.map (.inside, ·)
  | .missing | .externs _ | .breakLoop | .continueLoop | .ident _ | .bool _ | .integer _
  | .decimal _ | .string _ => []

/-- `Occurs b i c x`: the node `x` is `i` or stands below it. If `b` says whether `i`
is in a loop body of its function, `c` says it of `x`. -/
inductive Occurs : Bool → Item → Bool → Item → Prop
  | self {b : Bool} {i : Item} : Occurs b i b i
  | part {b c : Bool} {i j x : Item} {w : Way} (h : (w, j) ∈ i.parts)
      (below : Occurs (w.inLoop b) j c x) : Occurs b i c x

/-- A node occurs somewhere in a program; `inLoop` says whether in a loop body of its
nearest function. -/
def Program.Holds (program : Program) (inLoop : Bool) (x : Item) : Prop :=
  ∃ i ∈ program.items, Occurs false i inLoop x

/-- What occurs in a node does so wherever the node stands. -/
theorem Occurs.anywhere {b c : Bool} {i x : Item} (h : Occurs b i c x) (b' : Bool) :
    ∃ c', Occurs b' i c' x := by
  induction h generalizing b' with
  | self => exact ⟨b', .self⟩
  | part hm _ ih =>
    obtain ⟨c', hc⟩ := ih _
    exact ⟨c', .part hm hc⟩

/-! ## Induction on parts -/

theorem Branch.sizeOf_cond_lt (b : Branch) : sizeOf b.cond < sizeOf b := by
  cases b
  simp only [Branch.cond, Branch.mk.sizeOf_spec]
  omega

theorem Branch.sizeOf_body_lt (b : Branch) : sizeOf b.body < sizeOf b := by
  cases b
  simp only [Branch.body, Branch.mk.sizeOf_spec]
  omega

/-- Parts are smaller than their node. -/
theorem Item.sizeOf_part {i j : Item} {w : Way} (h : (w, j) ∈ i.parts) : sizeOf j < sizeOf i := by
  have inList : ∀ {l : List Item}, j ∈ l → sizeOf j < sizeOf l := List.sizeOf_lt_of_mem
  cases i with
  | function _ _ body | closure _ body =>
    simp only [Item.parts, List.mem_map, Prod.mk.injEq] at h
    obtain ⟨_, hm, _, rfl⟩ := h
    have := inList hm
    simp only [Item.function.sizeOf_spec, Item.closure.sizeOf_spec]
    omega
  | varDecl _ value | varSet _ value | returnValue value =>
    simp only [Item.parts, List.mem_singleton, Prod.mk.injEq] at h
    obtain ⟨_, rfl⟩ := h
    simp only [Item.varDecl.sizeOf_spec, Item.varSet.sizeOf_spec, Item.returnValue.sizeOf_spec]
    omega
  | mod _ l | array l | format _ _ l =>
    simp only [Item.parts, List.mem_map, Prod.mk.injEq] at h
    obtain ⟨_, hm, _, rfl⟩ := h
    have := inList hm
    simp only [Item.mod.sizeOf_spec, Item.array.sizeOf_spec, Item.format.sizeOf_spec]
    omega
  | ifElif cond body elifs otherwise =>
    simp only [Item.parts, List.cons_append, List.mem_cons, List.mem_append, List.mem_map,
      List.mem_flatMap, Prod.mk.injEq] at h
    rw [Item.ifElif.sizeOf_spec]
    rcases h with ⟨_, rfl⟩ | (⟨_, hm, _, rfl⟩ | ⟨b, hb, ⟨_, rfl⟩ | ⟨_, hm, _, rfl⟩⟩) |
      ⟨_, hm, _, rfl⟩
    · omega
    · have := inList hm
      omega
    · have := List.sizeOf_lt_of_mem hb
      have := b.sizeOf_cond_lt
      omega
    · have := List.sizeOf_lt_of_mem hb
      have := b.sizeOf_body_lt
      have := inList hm
      omega
    · cases otherwise with
      | none => simp at hm
      | some last =>
        have := inList (l := last) (by simpa using hm)
        rw [Option.some.sizeOf_spec]
        omega
  | whileLoop _ body | forIn _ _ body =>
    simp only [Item.parts, List.mem_cons, List.mem_map, Prod.mk.injEq] at h
    simp only [Item.whileLoop.sizeOf_spec, Item.forIn.sizeOf_spec]
    rcases h with ⟨_, rfl⟩ | ⟨_, hm, _, rfl⟩
    · omega
    · have := inList hm
      omega
  | forRange _ _ _ _ body =>
    simp only [Item.parts, List.mem_cons, List.mem_map, Prod.mk.injEq] at h
    rw [Item.forRange.sizeOf_spec]
    rcases h with ⟨_, rfl⟩ | ⟨_, rfl⟩ | ⟨_, rfl⟩ | ⟨_, hm, _, rfl⟩
    · omega
    · omega
    · omega
    · have := inList hm
      omega
  | call _ args =>
    simp only [Item.parts, List.mem_cons, List.mem_map, Prod.mk.injEq] at h
    rw [Item.call.sizeOf_spec]
    rcases h with ⟨_, rfl⟩ | ⟨_, hm, _, rfl⟩
    · omega
    · have := inList hm
      omega
  | binary =>
    simp only [Item.parts, List.mem_cons, List.not_mem_nil, or_false, Prod.mk.injEq] at h
    rw [Item.binary.sizeOf_spec]
    rcases h with ⟨_, rfl⟩ | ⟨_, rfl⟩
    · omega
    · omega
  | missing | externs | breakLoop | continueLoop | ident | bool | integer | decimal | string =>
    simp [Item.parts] at h

/-- What holds of a node whenever it holds of all its parts holds of every node. -/
theorem Item.induction_parts {P : Item → Prop}
    (step : ∀ i : Item, (∀ p ∈ i.parts, P p.2) → P i) (i : Item) : P i :=
  step i fun p _ => induction_parts step p.2
termination_by sizeOf i
decreasing_by exact Item.sizeOf_part ‹_›

end RustLua.Ir
