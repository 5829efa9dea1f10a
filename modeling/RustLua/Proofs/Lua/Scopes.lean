import RustLua.Lua.Piece

/-! # Blocks, loops and functions in a sequence of pieces

A reader that nests pieces, blanks aside, as Lua does, as far as jumps and labels go: the body of a
loop, any other block and a function are nodes of their own, which end at their `end`.
The head of a loop stands in front of its body, in the block around the loop. -/
namespace RustLua.Lua

inductive Node where
  | token (p : Piece)
  | jump (target : Bytes)
  | label (name : Bytes)
  | block (nodes : List Node)
  | loop (nodes : List Node)
  | function (nodes : List Node)

/-- What an `end` can close. -/
inductive Scope where
  | block | loop | function
deriving DecidableEq, Repr

def Scope.node : Scope → List Node → Node
  | .block => .block
  | .loop => .loop
  | .function => .function

/-- A scope that is still open, with its nodes so far. -/
structure Frame where
  scope : Scope := .block
  nodes : List Node := []
  /-- Between `while` or `for` and the `do` of that loop. -/
  inHead : Bool := false

def Frame.add (f : Frame) (n : Node) : Frame := { f with nodes := f.nodes ++ [n] }

/-- What must follow in a jump or label that is not complete. -/
inductive Pending where
  | nothing | target | labelName | labelEnd (name : Bytes)

structure Reader where
  top : Frame := {}
  outer : List Frame := []
  pending : Pending := .nothing

namespace Reader

def add (r : Reader) (n : Node) : Reader := { r with top := r.top.add n, pending := .nothing }

def enter (r : Reader) (scope : Scope) : Reader := { top := { scope }, outer := r.top :: r.outer }

def leave? (r : Reader) : Option Reader :=
  match r.outer with
  | [] => none
  | parent :: outer =>
    if r.top.inHead then none
    else some { top := parent.add (r.top.scope.node r.top.nodes), outer }

/-- The end of a branch that another one follows. -/
def leaveBranch? (r : Reader) : Option Reader := if r.top.scope = .block then r.leave? else none

/-- The head of a loop, up to its `do`. -/
def setHead (r : Reader) (inHead : Bool) : Reader := { r with top := { r.top with inHead } }

/-- Read a piece while nothing is pending. -/
def read? (r : Reader) : Piece → Option Reader
  | .keyword .gotoKw => some { r with pending := .target }
  | .mark .colons => some { r with pending := .labelName }
  | .keyword .whileKw => some ((r.add (.token (.keyword .whileKw))).setHead true)
  | .keyword .forKw => some ((r.add (.token (.keyword .forKw))).setHead true)
  | .keyword .doKw =>
    some (if r.top.inHead then (r.setHead false).enter .loop else r.enter .block)
  | .keyword .thenKw => some (r.enter .block)
  | .keyword .elseifKw => r.leaveBranch?
  | .keyword .elseKw => r.leaveBranch?.map (·.enter .block)
  | .keyword .functionKw => some (r.enter .function)
  | .keyword .endKw => r.leave?
  | p => some (r.add (.token p))

def next? (r : Reader) (p : Piece) : Option Reader :=
  match r.pending, p with
  | .nothing, p => r.read? p
  | .target, .name target => some (r.add (.jump target))
  | .labelName, .name name => some { r with pending := .labelEnd name }
  | .labelEnd name, .mark .colons => some (r.add (.label name))
  | _, _ => none

def run? (r : Reader) (pieces : Pieces) : Option Reader := pieces.foldlM next? r

theorem run?_append (r : Reader) (p q : Pieces) :
    r.run? (p ++ q) = (r.run? p).bind fun t => t.run? q :=
  List.foldlM_append

end Reader

/-- The nodes of pieces that leave no scope, head, jump or label open. -/
def nodes? (pieces : Pieces) : Option (List Node) :=
  match Reader.run? {} pieces with
  | some ⟨⟨_, nodes, false⟩, [], .nothing⟩ => some nodes
  | _ => none

/-! ## Complete sequences -/

/-- Pieces that add nodes to the open scope, wherever that is, and change nothing else. -/
def Scans (inHead : Bool) (pieces : Pieces) (nodes : List Node) : Prop :=
  ∀ scope before outer, Reader.run? ⟨⟨scope, before, inHead⟩, outer, .nothing⟩ pieces =
    some ⟨⟨scope, before ++ nodes, inHead⟩, outer, .nothing⟩

/-- Pieces that are nodes of their own. -/
def Piece.isInert : Piece → Bool
  | .mark .colons => false
  | .keyword k => k ∈ [.breakKw, .falseKw, .ifKw, .inKw, .localKw, .returnKw, .trueKw]
  | _ => true

variable {h : Bool} {p q body : Pieces} {ns ms : List Node}

theorem nodes?_of_scans (hp : Scans false p ns) : nodes? p = some ns := by
  have hrun := hp .block [] []
  rw [List.nil_append] at hrun
  rw [nodes?, hrun]

theorem scans_nil : Scans h [] [] := by
  intro scope before outer
  rw [List.append_nil]
  rfl

theorem Scans.append (hp : Scans h p ns) (hq : Scans h q ms) : Scans h (p ++ q) (ns ++ ms) := by
  intro scope before outer
  rw [Reader.run?_append, hp, Option.bind_some, hq, List.append_assoc]

theorem Reader.read?_inert (r : Reader) {a : Piece} (ha : a.isInert = true) :
    r.read? a = some (r.add (.token a)) := by
  cases a with
  | keyword k => revert ha; cases k <;> simp [Piece.isInert, Reader.read?]
  | mark m => revert ha; cases m <;> simp [Piece.isInert, Reader.read?]
  | _ => rfl

theorem scans_inert (hp : ∀ a ∈ p, a.isInert = true) : Scans h p (p.map .token) := by
  induction p with
  | nil => exact scans_nil
  | cons a p ih =>
    obtain ⟨ha, hp⟩ := List.forall_mem_cons.mp hp
    have hone : Scans h [a] [.token a] := by
      intro scope before outer
      exact congrArg (Option.bind · some) (Reader.read?_inert _ ha)
    exact hone.append (ih hp)

theorem scans_function (hb : Scans false body ns) :
    Scans h ([Piece.keyword .functionKw] ++ body ++ [Piece.keyword .endKw]) [.function ns] := by
  intro scope before outer
  have hopen : Reader.run? ⟨⟨scope, before, h⟩, outer, .nothing⟩ [.keyword .functionKw] =
      some ⟨⟨.function, [], false⟩, ⟨scope, before, h⟩ :: outer, .nothing⟩ := rfl
  rw [Reader.run?_append, Reader.run?_append, hopen, Option.bind_some, hb, Option.bind_some]
  rfl

theorem scans_block (hb : Scans false body ns) :
    Scans false ([Piece.keyword .doKw] ++ body ++ [Piece.keyword .endKw]) [.block ns] := by
  intro scope before outer
  have hopen : Reader.run? ⟨⟨scope, before, false⟩, outer, .nothing⟩ [.keyword .doKw] =
      some ⟨⟨.block, [], false⟩, ⟨scope, before, false⟩ :: outer, .nothing⟩ := rfl
  rw [Reader.run?_append, Reader.run?_append, hopen, Option.bind_some, hb, Option.bind_some]
  rfl

theorem scans_label (name : Bytes) :
    Scans h [.mark .colons, .name name, .mark .colons] [.label name] := fun _ _ _ => rfl

theorem scans_jump (target : Bytes) : Scans h [.keyword .gotoKw, .name target] [.jump target] :=
  fun _ _ _ => rfl

theorem scans_loop {k : Keyword} (hk : k = .whileKw ∨ k = .forKw) (hp : Scans true p ns)
    (hb : Scans false body ms) :
    Scans false ([Piece.keyword k] ++ p ++ [Piece.keyword .doKw] ++ body ++ [Piece.keyword .endKw])
      ([Node.token (.keyword k)] ++ ns ++ [Node.loop ms]) := by
  intro scope before outer
  have hhead : Reader.run? ⟨⟨scope, before, false⟩, outer, .nothing⟩ [.keyword k] =
      some ⟨⟨scope, before ++ [Node.token (.keyword k)], true⟩, outer, .nothing⟩ := by
    rcases hk with rfl | rfl <;> rfl
  have hopen (nodes : List Node) :
      Reader.run? ⟨⟨scope, nodes, true⟩, outer, .nothing⟩ [.keyword .doKw] =
        some ⟨⟨.loop, [], false⟩, ⟨scope, nodes, false⟩ :: outer, .nothing⟩ := rfl
  simp only [Reader.run?_append, hhead, Option.bind_some, hp _ _ _, hopen, hb _ _ _]
  simp [Reader.run?, Reader.next?, Reader.read?, Reader.leave?, Frame.add, Scope.node]

/-! ## Branches -/

/-- Pieces that close a branch with the nodes `ns` and open another one, whose nodes
are `ms` in the end. What stands in between belongs to the scope around both. -/
def Chains (pieces : Pieces) (ns between ms : List Node) : Prop :=
  ∀ scope before outer,
    Reader.run? ⟨⟨.block, ns, false⟩, ⟨scope, before, false⟩ :: outer, .nothing⟩ pieces =
      some ⟨⟨.block, ms, false⟩, ⟨scope, before ++ between, false⟩ :: outer, .nothing⟩

theorem chains_nil : Chains [] ns [] ns := by
  intro scope before outer
  rw [List.append_nil]
  rfl

theorem Chains.trans {ls between others : List Node} (hp : Chains p ns between ms)
    (hq : Chains q ms others ls) : Chains (p ++ q) ns (between ++ others) ls := by
  intro scope before outer
  rw [Reader.run?_append, hp, Option.bind_some, hq, List.append_assoc]

theorem chains_elseif {cs : List Node} (hp : Scans false p cs) (hb : Scans false body ms) :
    Chains ([Piece.keyword .elseifKw] ++ p ++ [Piece.keyword .thenKw] ++ body) ns
      ([Node.block ns] ++ cs) ms := by
  intro scope before outer
  have hclose : Reader.run? ⟨⟨.block, ns, false⟩, ⟨scope, before, false⟩ :: outer, .nothing⟩
      [.keyword .elseifKw] = some ⟨⟨scope, before ++ [.block ns], false⟩, outer, .nothing⟩ := rfl
  have hopen (nodes : List Node) :
      Reader.run? ⟨⟨scope, nodes, false⟩, outer, .nothing⟩ [.keyword .thenKw] =
        some ⟨⟨.block, [], false⟩, ⟨scope, nodes, false⟩ :: outer, .nothing⟩ := rfl
  simp only [Reader.run?_append, hclose, Option.bind_some, hp _ _ _, hopen, hb _ _ _,
    List.append_assoc, List.nil_append]

theorem chains_else (hb : Scans false body ms) :
    Chains ([Piece.keyword .elseKw] ++ body) ns [.block ns] ms := by
  intro scope before outer
  have hswitch : Reader.run? ⟨⟨.block, ns, false⟩, ⟨scope, before, false⟩ :: outer, .nothing⟩
      [.keyword .elseKw] =
        some ⟨⟨.block, [], false⟩, ⟨scope, before ++ [.block ns], false⟩ :: outer, .nothing⟩ := rfl
  rw [Reader.run?_append, hswitch, Option.bind_some, hb, List.nil_append]

theorem scans_if {cs between : List Node} (hp : Scans false p cs) (hb : Scans false body ns)
    (hq : Chains q ns between ms) :
    Scans false
      ([Piece.keyword .ifKw] ++ p ++ [Piece.keyword .thenKw] ++ body ++ q ++ [Piece.keyword .endKw])
      ([Node.token (.keyword .ifKw)] ++ cs ++ between ++ [Node.block ms]) := by
  intro scope before outer
  have hstart : Reader.run? ⟨⟨scope, before, false⟩, outer, .nothing⟩ [.keyword .ifKw] =
      some ⟨⟨scope, before ++ [Node.token (.keyword .ifKw)], false⟩, outer, .nothing⟩ := rfl
  have hopen (nodes : List Node) :
      Reader.run? ⟨⟨scope, nodes, false⟩, outer, .nothing⟩ [.keyword .thenKw] =
        some ⟨⟨.block, [], false⟩, ⟨scope, nodes, false⟩ :: outer, .nothing⟩ := rfl
  simp only [Reader.run?_append, hstart, Option.bind_some, hp _ _ _, hopen, hb _ _ _,
    List.nil_append, hq _ _ _]
  simp [Reader.run?, Reader.next?, Reader.read?, Reader.leave?, Frame.add, Scope.node]

end RustLua.Lua
