import RustLua.Lua.Piece
import RustLua.Proofs.Ir.Parts

/-! # Regular nodes

The nodes that lowering builds. Every child is there, every name is a word,
operators are plain, the slots of a format number its marks in order, and a
statement never stands where a value is wanted. What regularity leaves open are
two things: whether a format has as many values as marks, and whether breaks and
continues stand in loops. -/
namespace RustLua.Ir

variable {i : Item}

/-- What a node is used as. -/
inductive Role where
  | value | statement
deriving DecidableEq, Repr

/-- The slots of a format with `n` marks, each of which takes the next value. -/
def slotNumbers (n : Nat) : List Int := (List.range n).map fun (k : Nat) => (k : Int) + 1

theorem mem_slotNumbers {n : Nat} {k : Int} : k ∈ slotNumbers n ↔ 1 ≤ k ∧ k ≤ n := by
  simp only [slotNumbers, List.mem_map, List.mem_range]
  constructor
  · rintro ⟨m, hm, rfl⟩
    omega
  · rintro ⟨h1, h2⟩
    exact ⟨(k - 1).toNat, by omega, by omega⟩

inductive Item.Regular : Role → Item → Prop
  | ident {name : Bytes} (hn : Lua.isWord name = true) : Regular .value (.ident name)
  | bool {value : Bool} : Regular .value (.bool value)
  | integer {value : Int64} : Regular .value (.integer value)
  | decimal {value : Double} : Regular .value (.decimal value)
  | string {value : Bytes} : Regular .value (.string value)
  | call {func : Item} {args : List Item} (hf : Regular .value func)
      (ha : ∀ a ∈ args, Regular .value a) : Regular .value (.call func args)
  | closure {params : List Bytes} {body : List Item} (hp : ∀ p ∈ params, Lua.isWord p = true)
      (hb : ∀ i ∈ body, Regular .statement i) : Regular .value (.closure params body)
  | array {elements : List Item} (he : ∀ e ∈ elements, Regular .value e) :
      Regular .value (.array elements)
  | binary {op : BinaryOp} {lhs rhs : Item} (hk : op.isKnown = true)
      (hc : op.isCompound = false) (hl : Regular .value lhs) (hr : Regular .value rhs) :
      Regular .value (.binary op lhs rhs)
  | format {fragments : List Bytes} {slots : List Int} {values : List Item}
      (hf : fragments.length = slots.length + 1) (hs : slots = slotNumbers slots.length)
      (hv : ∀ v ∈ values, Regular .value v) : Regular .value (.format fragments slots values)
  | ofValue {i : Item} (hi : Regular .value i) : Regular .statement i
  | function {name : Bytes} {params : List Bytes} {body : List Item}
      (hn : Lua.isWord name = true) (hp : ∀ p ∈ params, Lua.isWord p = true)
      (hb : ∀ i ∈ body, Regular .statement i) : Regular .statement (.function name params body)
  | varDecl {name : Bytes} {value : Item} (hn : Lua.isWord name = true)
      (hv : Regular .value value) : Regular .statement (.varDecl name value)
  | varSet {name : Bytes} {value : Item} (hn : Lua.isWord name = true)
      (hv : Regular .value value) : Regular .statement (.varSet name value)
  | externs {names : List Bytes} (hne : names ≠ []) (hn : ∀ n ∈ names, Lua.isWord n = true) :
      Regular .statement (.externs names)
  | mod {name : Bytes} {items : List Item} (hn : Lua.isWord name = true)
      (hi : ∀ i ∈ items, Regular .statement i) : Regular .statement (.mod name items)
  | breakLoop : Regular .statement .breakLoop
  | continueLoop : Regular .statement .continueLoop
  | returnValue {value : Item} (hv : value ≠ .missing → Regular .value value) :
      Regular .statement (.returnValue value)
  | ifElif {cond : Item} {body : List Item} {elifs : List Branch}
      {otherwise : Option (List Item)} (hc : Regular .value cond)
      (hb : ∀ i ∈ body, Regular .statement i) (hec : ∀ b ∈ elifs, Regular .value b.cond)
      (heb : ∀ b ∈ elifs, ∀ i ∈ b.body, Regular .statement i)
      (ho : ∀ last ∈ otherwise, ∀ i ∈ last, Regular .statement i) :
      Regular .statement (.ifElif cond body elifs otherwise)
  | whileLoop {cond : Item} {body : List Item} (hc : Regular .value cond)
      (hb : ∀ i ∈ body, Regular .statement i) : Regular .statement (.whileLoop cond body)
  | forRange {var : Bytes} {min max step : Item} {body : List Item}
      (hn : Lua.isWord var = true) (hmin : Regular .value min) (hmax : Regular .value max)
      (hs : step ≠ .missing → Regular .value step) (hb : ∀ i ∈ body, Regular .statement i) :
      Regular .statement (.forRange var min max step body)
  | forIn {var : Bytes} {iterated : Item} {body : List Item} (hn : Lua.isWord var = true)
      (hi : Regular .value iterated) (hb : ∀ i ∈ body, Regular .statement i) :
      Regular .statement (.forIn var iterated body)

/-- A program of regular statements. -/
def Program.Regular (program : Program) : Prop := ∀ i ∈ program.items, i.Regular .statement

theorem Item.Regular.ne_missing {role : Role} (h : i.Regular role) : i ≠ .missing := by
  induction h with
  | ofValue _ ih => exact ih
  | _ => intro he; cases he

/-! ## Formats and their values -/

/-- Every format in a node has as many values as marks. -/
def Item.Filled (i : Item) : Prop :=
  ∀ b c fragments slots values, Occurs b i c (.format fragments slots values) →
    values.length = slots.length

/-- The same of the node alone, without what stands below it. -/
def Item.FilledHere : Item → Prop
  | .format _ slots values => values.length = slots.length
  | _ => True

theorem Item.filled_iff :
    i.Filled ↔ i.FilledHere ∧ ∀ p ∈ i.parts, p.2.Filled := by
  constructor
  · intro h
    refine ⟨?_, ?_⟩
    · cases i with
      | format fragments slots values => exact h false false _ _ _ .self
      | _ => trivial
    · intro p hm b c fragments slots values ho
      obtain ⟨c', ho'⟩ := ho.anywhere (p.1.inLoop b)
      exact h b c' _ _ _ (.part hm ho')
  · rintro ⟨hh, hp⟩ b c fragments slots values ho
    cases ho with
    | self => exact hh
    | part hm below => exact hp _ hm _ _ _ _ _ below

theorem Item.Filled.parts (h : i.Filled) : ∀ p ∈ i.parts, p.2.Filled :=
  (Item.filled_iff.mp h).2

/-! ## Jumps and loops -/

def Item.isJump : Item → Bool
  | .breakLoop | .continueLoop => true
  | _ => false

/-- No break or continue in a node is outside the loops of its function. -/
def Item.Settled (inLoop : Bool) (i : Item) : Prop :=
  ∀ x, Occurs inLoop i false x → x.isJump = false

theorem Item.settled_iff {b : Bool} :
    i.Settled b ↔ (i.isJump = true → b = true) ∧
      ∀ p ∈ i.parts, p.2.Settled (p.1.inLoop b) := by
  constructor
  · intro h
    refine ⟨?_, fun p hm x ho => h x (.part hm ho)⟩
    intro hj
    cases b with
    | true => rfl
    | false => rw [h i .self] at hj; cases hj
  · rintro ⟨hh, hp⟩ x ho
    cases ho with
    | self =>
      cases hx : i.isJump with
      | false => rfl
      | true => cases hh hx
    | part hm below => exact hp _ hm x below

end RustLua.Ir
