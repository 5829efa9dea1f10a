import Mathlib.Data.List.Perm.Basic
import Mathlib.Data.List.Sigma
import RustLua.Tree.Basic

/-! # Nodes and their addresses

A file is a tree of nodes. `Node.parts` lists what stands directly below a node, in the order
of the source, and an address says which part to take at every step. `Node.at?` follows an
address, and `Node.nodes` lists every node with its address. Both go into a node only if `enter`
says so. -/
namespace RustLua.Tree

/-- A node. The place that a plain assignment writes to is a node of a kind of its own. -/
inductive Node where
  | file (f : File)
  | item (i : Item)
  | block (b : Block)
  | stmt (s : Stmt)
  | expr (e : Expr)
  | target (e : Expr)

def Arm.parts : Arm → List Node
  | .mk _ guard body => guard.toList.map .expr ++ [.expr body]

def FieldInit.value : FieldInit → Expr
  | .mk _ value => value

def Expr.parts : Expr → List Node
  | .lit _ | .path .. | .continueOn .. => []
  | .call e args _ | .methodCall e _ args _ => .expr e :: args.map .expr
  | .field e _ _ | .unary _ e _ | .ref _ e _ | .cast e _ _ | .paren e _ | .closure _ e _ _
  | .letCond _ e _ | .tryOp e _ => [.expr e]
  | .index e e' _ | .binary _ e e' _ | .assignOp _ e e' _ => [.expr e, .expr e']
  | .assign target value _ => [.target target, .expr value]
  | .tuple elements _ | .macroCall _ elements _ _ => elements.map .expr
  | .array elements length _ => elements.map .expr ++ length.toList.map .expr
  | .block body _ _ _ | .loop body _ _ => [.block body]
  | .ifElse cond body otherwise _ => .expr cond :: .block body :: otherwise.toList.map .expr
  | .whileLoop e body _ _ | .forLoop _ e body _ _ => [.expr e, .block body]
  | .breakOut _ value _ | .returnWith value _ => value.toList.map .expr
  | .range first last _ _ => first.toList.map .expr ++ last.toList.map .expr
  | .matchOn scrutinee arms _ => .expr scrutinee :: arms.flatMap Arm.parts
  | .structLit _ fields _ => fields.map fun f => .expr f.value

def Stmt.parts : Stmt → List Node
  | .binding _ _ init otherwise _ => init.toList.map .expr ++ otherwise.toList.map .block
  | .item i => [.item i]
  | .expr e _ => [.expr e]

def Item.parts : Item → List Node
  | .fn _ _ _ body _ _ _ => body.toList.map .block
  | .inlineModule _ items _ | .impl _ _ items _ => items.map .item
  | .const _ _ _ value _ => value.toList.map .expr
  | .foreign .. | .fileModule .. | .use .. | .typeDef .. => []

/-- All that stands directly below a node. -/
def Node.parts : Node → List Node
  | .file f => f.items.map .item
  | .item i => i.parts
  | .block b => b.stmts.map .stmt
  | .stmt s => s.parts
  | .expr e | .target e => e.parts

/-! ## Induction on parts -/

section
variable {α : Type} [SizeOf α] {wrap : α → Node} {p : Node}

theorem sizeOf_of_mem_map (hwrap : ∀ x, sizeOf (wrap x) = 1 + sizeOf x) {l : List α}
    (h : p ∈ l.map wrap) : sizeOf p ≤ sizeOf l := by
  obtain ⟨x, hx, rfl⟩ := List.mem_map.mp h
  have := List.sizeOf_lt_of_mem hx
  rw [hwrap]
  omega

theorem sizeOf_of_mem_toList (hwrap : ∀ x, sizeOf (wrap x) = 1 + sizeOf x) {o : Option α}
    (h : p ∈ o.toList.map wrap) : sizeOf p ≤ sizeOf o := by
  obtain ⟨x, hx, rfl⟩ := List.mem_map.mp h
  obtain rfl := Option.mem_toList.mp hx
  exact Nat.le_of_eq ((hwrap x).trans (Option.some.sizeOf_spec x).symm)

end

theorem Arm.sizeOf_part {arm : Arm} {p : Node} (h : p ∈ arm.parts) : sizeOf p ≤ sizeOf arm := by
  obtain ⟨pattern, guard, body⟩ := arm
  simp only [Arm.parts, List.mem_append, List.mem_singleton] at h
  rw [Arm.mk.sizeOf_spec]
  rcases h with h | rfl
  · have := sizeOf_of_mem_toList Node.expr.sizeOf_spec h
    omega
  · rw [Node.expr.sizeOf_spec]
    omega

theorem Expr.sizeOf_part {e : Expr} {p : Node} (h : p ∈ e.parts) : sizeOf p ≤ sizeOf e := by
  have inList {l : List Expr} : p ∈ l.map .expr → sizeOf p ≤ sizeOf l :=
    sizeOf_of_mem_map Node.expr.sizeOf_spec
  have inOption {o : Option Expr} : p ∈ o.toList.map .expr → sizeOf p ≤ sizeOf o :=
    sizeOf_of_mem_toList Node.expr.sizeOf_spec
  cases e with
  | lit | path | continueOn => simp [Expr.parts] at h
  | matchOn scrutinee arms =>
    simp only [Expr.parts, List.mem_cons, List.mem_flatMap] at h
    rw [Expr.matchOn.sizeOf_spec]
    rcases h with rfl | ⟨arm, harm, h⟩
    · rw [Node.expr.sizeOf_spec]
      omega
    · have := Arm.sizeOf_part h
      have := List.sizeOf_lt_of_mem harm
      omega
  | structLit _ fields =>
    obtain ⟨⟨name, value⟩, hf, rfl⟩ := List.mem_map.mp h
    have := List.sizeOf_lt_of_mem hf
    rw [FieldInit.mk.sizeOf_spec] at this
    rw [Expr.structLit.sizeOf_spec, Node.expr.sizeOf_spec, FieldInit.value]
    omega
  | _ =>
    simp only [Expr.parts, List.mem_cons, List.mem_append, List.not_mem_nil, or_false] at h
    simp
    grind [Node.expr.sizeOf_spec]

theorem Node.sizeOf_part {n p : Node} (h : p ∈ n.parts) : sizeOf p < sizeOf n := by
  cases n with
  | expr e | target e =>
    have := Expr.sizeOf_part h
    simp only [Node.expr.sizeOf_spec, Node.target.sizeOf_spec]
    omega
  | file f =>
    obtain ⟨items⟩ := f
    have := sizeOf_of_mem_map (l := items) Node.item.sizeOf_spec h
    rw [Node.file.sizeOf_spec, File.mk.sizeOf_spec]
    omega
  | block b =>
    obtain ⟨stmts, pos⟩ := b
    have := sizeOf_of_mem_map (l := stmts) Node.stmt.sizeOf_spec h
    rw [Node.block.sizeOf_spec, Block.mk.sizeOf_spec]
    omega
  | stmt s =>
    cases s with
    | binding =>
      rw [Node.stmt.sizeOf_spec, Stmt.binding.sizeOf_spec]
      rcases List.mem_append.mp h with h | h
      · have := sizeOf_of_mem_toList Node.expr.sizeOf_spec h
        omega
      · have := sizeOf_of_mem_toList Node.block.sizeOf_spec h
        omega
    | item | expr =>
      obtain rfl := List.mem_singleton.mp h
      simp only [Node.stmt.sizeOf_spec, Node.item.sizeOf_spec, Node.expr.sizeOf_spec,
        Stmt.item.sizeOf_spec, Stmt.expr.sizeOf_spec]
      omega
  | item i =>
    rw [Node.item.sizeOf_spec]
    cases i with
    | fn =>
      have := sizeOf_of_mem_toList Node.block.sizeOf_spec h
      rw [Item.fn.sizeOf_spec]
      omega
    | inlineModule | impl =>
      have := sizeOf_of_mem_map Node.item.sizeOf_spec h
      simp only [Item.inlineModule.sizeOf_spec, Item.impl.sizeOf_spec]
      omega
    | const =>
      have := sizeOf_of_mem_toList Node.expr.sizeOf_spec h
      rw [Item.const.sizeOf_spec]
      omega
    | foreign | fileModule | use | typeDef => cases h

/-- What holds of a node whenever it holds of all its parts holds of every node. -/
theorem Node.induction_parts {P : Node → Prop}
    (step : ∀ n : Node, (∀ p ∈ n.parts, P p) → P n) (n : Node) : P n :=
  step n fun p _ => induction_parts step p
termination_by sizeOf n
decreasing_by exact Node.sizeOf_part ‹_›

/-! ## Addresses -/

/-- Which part to take at every step. -/
abbrev Address := List Nat

/-- The node that stands at an address below another. -/
def Node.at? (enter : Node → Bool) (n : Node) : Address → Option Node
  | [] => some n
  | i :: a => if enter n then n.parts[i]?.bind fun p => p.at? enter a else none

/-- A node and all below it, each with its address. -/
def Node.nodes (enter : Node → Bool) (n : Node) : List (Address × Node) :=
  ([], n) :: if enter n then
      n.parts.zipIdx.attach.flatMap fun x =>
        (x.1.1.nodes enter).map fun y => (x.1.2 :: y.1, y.2)
    else []
termination_by sizeOf n
decreasing_by exact Node.sizeOf_part (List.fst_mem_of_mem_zipIdx x.2)

variable {enter : Node → Bool} {n m : Node} {a : Address}

theorem Node.nodes_eq (enter : Node → Bool) (n : Node) : n.nodes enter =
    ([], n) :: if enter n then
        n.parts.zipIdx.flatMap fun x => (x.1.nodes enter).map fun y => (x.2 :: y.1, y.2)
      else [] := by
  rw [nodes, List.flatMap_subtype (g := fun x => (x.1.nodes enter).map fun y => (x.2 :: y.1, y.2))
    (fun _ _ => rfl), List.unattach_attach]

theorem Node.mem_nodes : (a, m) ∈ n.nodes enter ↔ n.at? enter a = some m := by
  induction a generalizing n with
  | nil =>
    rw [nodes_eq, at?]
    split
    · simp [eq_comm]
    · simp [eq_comm]
  | cons i a ih =>
    rw [nodes_eq, at?]
    split
    · simp [ih, List.mem_zipIdx_iff_getElem?, Option.bind_eq_some_iff]
    · simp

/-- No two nodes have one address. -/
theorem Node.nodup_addresses (enter : Node → Bool) (n : Node) :
    ((n.nodes enter).map Prod.fst).Nodup := by
  induction n using Node.induction_parts with
  | step n ih =>
    rw [nodes_eq]
    split
    · simp only [List.map_cons, List.map_flatMap, List.map_map, List.nodup_cons,
        List.nodup_flatMap]
      refine ⟨by simp, fun x hx => ?_, ?_⟩
      · have hp := (ih _ (List.fst_mem_of_mem_zipIdx hx)).map (List.cons_injective (a := x.2))
        rw [List.map_map] at hp
        exact hp
      · -- addresses below different parts differ in their first step
        refine (List.pairwise_map.mp (List.nodup_zipIdx_map_snd n.parts)).imp fun hne => ?_
        intro a ha hb
        obtain ⟨y, -, rfl⟩ := List.mem_map.mp ha
        obtain ⟨z, -, hz⟩ := List.mem_map.mp hb
        exact hne (List.cons.inj hz).1.symm
    · simp

/-- A list that is made, at every node that is entered, of the node's own entries and of the
lists of its parts, in any order, holds the entries of all nodes. -/
theorem Node.perm_flatMap_nodes {σ β : Type} {own : Node → List β} {emit : σ → Node → List β}
    (step : ∀ s n, ∃ s', (emit s n).Perm
      (own n ++ if enter n then n.parts.flatMap (emit s') else []))
    (s : σ) (n : Node) : (emit s n).Perm ((n.nodes enter).flatMap fun x => own x.2) := by
  induction n using Node.induction_parts generalizing s with
  | step n ih =>
    obtain ⟨s', h⟩ := step s n
    refine h.trans ?_
    rw [nodes_eq, List.flatMap_cons]
    refine List.Perm.append_left _ ?_
    split
    · have hparts : n.parts.flatMap (emit s') = n.parts.zipIdx.flatMap fun x => emit s' x.1 := by
        conv_lhs => rw [← List.zipIdx_map_fst 0 n.parts, List.flatMap_map]
      rw [hparts, List.flatMap_assoc]
      refine List.Perm.flatMap_left _ fun x hx => ?_
      rw [List.flatMap_map]
      exact ih _ (List.fst_mem_of_mem_zipIdx hx) s'
    · exact .refl _

end RustLua.Tree
