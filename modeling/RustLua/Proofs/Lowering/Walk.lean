import RustLua.Proofs.Lowering.Steps
import RustLua.Proofs.Walk

/-! # Lowering keeps every statement in its place

A tree and what it lowers to are walked through alongside each other: where a statement of the
tree stands, its own node stands in the intermediate form, and where a sequence of the tree is
entered, a sequence of nodes is entered that was collected from it. What the two walks have in
common is said of single statements and single sequences then. -/
namespace RustLua.Lowering

open RustLua.Tree
open Ir (walkNode walkNodes walkValues walkElifs walkOtherwise)

variable {cs : List Contribution}

/-- The nodes are those of the sequence. -/
def LowersSequence : Sequence → List Ir.Item → Prop
  | .items list, nodes => ∃ cs, lowerItems list = .ok cs ∧ nodes = collect cs
  | .block isTail stmts, nodes => ∃ cs, lowerStmts isTail stmts = .ok cs ∧ nodes = collect cs

/-- The node is that of the statement. -/
inductive LowersSite : Site → Ir.Item → Prop
  | expr {e : Expr} {semi inTail : Bool} {node : Ir.Item}
      (h : lowerExpr (if inTail then .tail else .statement) e = .ok node) :
      LowersSite ⟨.expr e semi, inTail⟩ node
  | other {s : Stmt} {node : Ir.Item} (hs : ∀ e semi, s ≠ .expr e semi)
      (h : lowerStmt false s = .ok (.node node)) : LowersSite ⟨s, false⟩ node

/-- The node of a statement that is no expression. -/
def isDefinition : Ir.Item → Bool
  | .varDecl .. | .function .. | .mod .. => true
  | _ => false

/-- A statement other than an expression declares extern names or defines something. -/
theorem lowerStmt_eq_ok {s : Stmt} {isTail : Bool} {c : Contribution}
    (hs : ∀ e semi, s ≠ .expr e semi) (h : lowerStmt isTail s = .ok c) :
    (∃ names, s.externNames? = some names ∧ c = .externs names) ∨
      s.externNames? = none ∧ ∃ node, c = .node node ∧ isDefinition node = true := by
  cases s with
  | expr e semi => exact absurd rfl (hs e semi)
  | binding pattern type init otherwise =>
    rw [lowerStmt] at h
    obtain ⟨name, -, h⟩ := bind_eq_ok.mp h
    cases init with
    | none => cases h
    | some e =>
      cases otherwise with
      | some => cases h
      | none =>
        obtain ⟨value, -, h⟩ := bind_eq_ok.mp h
        cases h
        exact .inr ⟨rfl, _, rfl, rfl⟩
  | item i =>
    cases i with
    | fn name params returns body =>
      cases body with
      | none =>
        cases h
        exact .inl ⟨_, rfl, rfl⟩
      | some body =>
        obtain ⟨stmts, pos⟩ := body
        obtain ⟨names, -, h⟩ := bind_eq_ok.mp h
        obtain ⟨cs, -, h⟩ := bind_eq_ok.mp h
        cases h
        exact .inr ⟨rfl, _, rfl, rfl⟩
    | foreign =>
      cases h
      exact .inl ⟨_, rfl, rfl⟩
    | inlineModule name items =>
      obtain ⟨cs, -, h⟩ := bind_eq_ok.mp h
      cases h
      exact .inr ⟨rfl, _, rfl, rfl⟩
    | _ => cases h

abbrev Follows : Tree.Walk → Ir.Walk → Prop := Alongside LowersSequence LowersSite

variable {w : Tree.Walk} {place : Place} {i : Ir.Item}

/-! ## Places -/

/-- The head of a loop, which has no body yet. -/
def headWalk : Ir.Item → Ir.Walk
  | .forRange _ min max step _ => walkNode true min ++ walkNode true max ++ walkNode true step
  | iterated => walkNode true iterated

/-- The walk through what comes out at a place. -/
def Place.walk : Place → Ir.Item → Ir.Walk
  | .value, i => walkNode true i
  | .statement, i | .tail, i => walkNode false i
  | .iterated, i => headWalk i

/-- Only a return is walked through differently as a value. -/
theorem walkNode_false (h : Stop.stray ∉ walkNode true i) : walkNode false i = walkNode true i := by
  cases i with
  | returnValue value => exact absurd (List.mem_cons_self ..) h
  | _ => rfl

theorem follows_finish (h : Follows w (walkNode true i))
    (hi : place = .iterated → headWalk i = walkNode true i) :
    Follows w (place.walk (place.finish i)) := by
  cases place with
  | value => exact h
  | statement =>
    rw [← walkNode_false h.not_stray] at h
    exact h
  | tail => exact h
  | iterated =>
    rw [← hi rfl] at h
    exact h

theorem walk_of_not_wantsValue (h : place.wantsValue = false) : place.walk i = walkNode false i := by
  cases place with
  | value | iterated => cases h
  | statement | tail => rfl

theorem follows_statementOnly {what : String} {pos : Pos} {x : Except Rejection Ir.Item}
    (h : Ensures x fun i => Follows w (walkNode false i)) :
    Ensures (place.statementOnly what pos x) fun i => Follows w (place.walk i) :=
  ensures_statementOnly fun hp => h.imp fun _ hi => (walk_of_not_wantsValue hp).symm ▸ hi

theorem walk_loopOver (var : Bytes) (body : List Ir.Item) (head : Ir.Item) :
    walkNode false (loopOver var body head) =
      headWalk head ++ Walk.body .loop body (walkNodes body) := by
  cases head <;> rfl

theorem walk_minusOne (i : Ir.Item) : walkNode true (minusOne i) = walkNode true i := by
  have hsub (i : Ir.Item) : walkNode true (.binary .sub i (.integer 1)) = walkNode true i :=
    List.append_nil _
  cases i with
  | integer n =>
    rw [minusOne]
    split <;> rfl
  | _ => exact hsub _

theorem follows_literal (i : Ir.Item) (h : IsLiteralNode i) :
    Follows [] (place.walk (place.finish i)) := by
  cases h with
  | bool | string | integer | decimal => exact follows_finish .nil fun _ => rfl

/-- A range that is iterated over is the head of a loop without a step. -/
theorem ensures_range (e : Expr) (h : isRange e = true) :
    Ensures (lowerExpr .iterated e) fun i => ∃ min max, i = rangeHead min max := by
  induction e using isRange.induct with
  | case1 inner _ ih =>
    rw [lowerExpr, if_pos rfl]
    exact ih h
  | case2 =>
    rw [lowerExpr, if_pos rfl]
    exact (ensures_true _).bind fun _ _ _ => (ensures_true _).bind fun _ _ _ => .pure ⟨_, _, rfl⟩
  | case3 e hparen hrange =>
    cases e with
    | paren inner pos => exact absurd rfl (hparen inner pos)
    | range first last inclusive pos => exact absurd rfl (hrange first last inclusive pos)
    | _ => cases h

/-! ## Sequences -/

def Contribution.walk : Contribution → Ir.Walk
  | .node item => .statement item :: walkNode false item
  | .externs _ => []

def contributed (cs : List Contribution) : Ir.Walk := cs.flatMap Contribution.walk

theorem walkNodes_cons (h : Stop.stray ∉ walkNode false i) (is : List Ir.Item) :
    walkNodes (i :: is) = .statement i :: walkNode false i ++ walkNodes is := by
  cases i with
  | externs => exact absurd (List.mem_singleton_self _) h
  | _ => rfl

theorem walkNodes_filterMap (h : Stop.stray ∉ contributed cs) :
    walkNodes (cs.filterMap Contribution.node?) = contributed cs := by
  induction cs with
  | nil => rfl
  | cons c cs ih =>
    rw [contributed, List.flatMap_cons, List.mem_append, not_or] at h
    cases c with
    | externs => exact ih h.2
    | node item =>
      have hitem : Stop.stray ∉ walkNode false item := fun hm => h.1 (List.mem_cons_of_mem _ hm)
      exact (walkNodes_cons hitem _).trans (congrArg (_ ++ ·) (ih h.2))

/-- Where the extern names are put does not matter. -/
theorem walkNodes_placeExterns (names : List Bytes) (cs : List Contribution) :
    walkNodes (placeExterns names cs) = walkNodes (cs.filterMap Contribution.node?) := by
  induction cs with
  | nil => rfl
  | cons c cs ih =>
    match c with
    | .node item =>
      cases item with
      | externs => exact ih
      | _ => exact congrArg (_ :: _ ++ ·) ih
    | .externs [] => exact ih
    | .externs (_ :: _) => rfl

theorem follows_collect (h : Follows w (contributed cs)) :
    Follows w (walkNodes (collect cs)) := by
  rwa [collect, walkNodes_placeExterns, walkNodes_filterMap h.not_stray]

theorem follows_block {isTail : Bool} {stmts : List Stmt}
    (kind : BodyKind) (hcs : lowerStmts isTail stmts = .ok cs) (h : Follows w (contributed cs)) :
    Follows (Walk.body kind (.block isTail stmts) w)
      (Walk.body kind (collect cs) (walkNodes (collect cs))) :=
  .body kind ⟨cs, hcs, rfl⟩ (follows_collect h)

/-! ## Trees -/

/-- A statement other than an expression is met where its node is. -/
theorem ensures_site {s : Stmt} (hs : ∀ e semi, s ≠ .expr e semi)
    (h : Ensures (lowerStmt false s) fun c =>
      ∃ node, c = .node node ∧ Follows w (walkNode false node)) :
    Ensures (lowerStmt false s) fun c => Follows (.statement ⟨s, false⟩ :: w) c.walk := by
  intro c hc
  obtain ⟨node, rfl, hw⟩ := h c hc
  exact .statement (.other hs hc) hw

mutual

theorem follows_lowerExpr (place : Place) : (e : Expr) →
    Ensures (lowerExpr place e) fun i => Follows (walkExpr (place = .tail) e) (place.walk i)
  | .lit _ => ensures_lit follows_literal
  | .path _ _ => .pure (follows_finish .nil fun _ => rfl)
  | .call func args _ =>
    (follows_lowerExpr .value func).bind fun _ _ hf =>
      (follows_lowerValues args).bind fun _ _ ha =>
        .pure (follows_finish (hf.append ha) fun _ => rfl)
  | .methodCall receiver method [step] _ => by
    refine ensures_methodCall ?_
    rintro rfl hr
    refine (follows_lowerExpr .iterated receiver).bind fun head hh hw =>
      (follows_lowerExpr .value step).bind fun s _ hs => .pure ?_
    obtain ⟨min, max, rfl⟩ := ensures_range receiver hr head hh
    -- the head has no step yet, and so the new one stands behind all that was met in it
    have hbounds : Follows (walkExpr false receiver) (walkNode true min ++ walkNode true max) :=
      List.append_nil (walkNode true min ++ walkNode true max) ▸ hw
    have hall := hbounds.append (hs.append .nil)
    rwa [List.append_nil (Place.value.walk s)] at hall
  | .methodCall _ _ [] _ | .methodCall _ _ (_ :: _ :: _) _ => .error
  | .field _ _ _ | .index _ _ _ | .ref _ _ _ | .cast _ _ _ | .letCond _ _ _ | .matchOn _ _ _
  | .structLit _ _ _ | .tryOp _ _ => .error
  | .binary op left right _ =>
    (follows_lowerExpr .value left).bind fun _ _ hl =>
      (follows_lowerExpr .value right).bind fun _ _ hr =>
        .pure (follows_finish (hl.append hr) fun _ => rfl)
  | .assign target value _ => follows_statementOnly <| (ensures_true _).bind fun _ _ _ =>
    (follows_lowerExpr .value value).bind fun _ _ hv => .pure hv
  | .assignOp _ target value _ => follows_statementOnly <| (ensures_true _).bind fun _ _ _ =>
    (follows_lowerExpr .value value).bind fun _ _ hv => .pure hv
  | .unary _ operand _ => ensures_unary fun l hl => by
    subst hl
    exact follows_literal
  | .paren inner _ => .ite (fun h => by subst h; exact follows_lowerExpr .iterated inner) fun h =>
    (follows_lowerExpr .value inner).bind fun _ _ hi => .pure (follows_finish hi fun he => absurd he h)
  | .tuple elements _ =>
    (follows_lowerValues elements).bind fun _ _ he => .pure (follows_finish he fun _ => rfl)
  | .array elements none _ =>
    (follows_lowerValues elements).bind fun _ _ he => .pure (follows_finish he fun _ => rfl)
  | .array _ (some _) _ => .error
  | .block _ _ _ _ => .ite (fun _ => .error) fun _ => .error
  | .closure params body _ _ => by
    cases body with
    | block body =>
      obtain ⟨stmts, pos⟩ := body
      exact (ensures_true _).bind fun _ _ _ => (follows_lowerStmts true stmts).bind fun _ hcs hs =>
        .pure (follows_finish (follows_block .closure hcs hs) fun _ => rfl)
    | _ => exact .error
  | .ifElse cond (.mk stmts _) otherwise _ => follows_statementOnly <|
    (follows_lowerExpr .value cond).bind fun _ _ hc =>
      (follows_lowerStmts _ stmts).bind fun _ hcs hs =>
        (follows_lowerElse _ otherwise).bind fun _ _ ho =>
          .pure ((hc.append (follows_block .branch hcs hs)).append ho)
  | .whileLoop cond (.mk stmts _) _ _ => follows_statementOnly <|
    (follows_lowerExpr .value cond).bind fun _ _ hc =>
      (follows_lowerStmts _ stmts).bind fun _ hcs hs =>
        .pure (hc.append (follows_block .loop hcs hs))
  | .loop (.mk stmts _) _ _ => follows_statementOnly <|
    (follows_lowerStmts _ stmts).bind fun _ hcs hs => .pure (follows_block .loop hcs hs)
  | .forLoop pattern iterated (.mk stmts _) _ _ => follows_statementOnly <|
    (ensures_true _).bind fun _ _ _ => (follows_lowerExpr .iterated iterated).bind fun _ _ hi =>
      (follows_lowerStmts _ stmts).bind fun _ hcs hs =>
        .pure ((walk_loopOver ..).symm ▸ hi.append (follows_block .loop hcs hs))
  | .breakOut [] none _ | .continueOn [] _ => follows_statementOnly (.pure .nil)
  | .breakOut [] (some _) _ | .breakOut (_ :: _) _ _ | .continueOn (_ :: _) _ =>
    follows_statementOnly .error
  | .returnWith none _ => follows_statementOnly (.pure .nil)
  | .returnWith (some e) _ => follows_statementOnly <|
    (follows_lowerExpr .value e).bind fun _ _ he => .pure he
  | .macroCall _ [] _ _ => ensures_macroCall_nil fun _ => follows_finish .nil fun _ => rfl
  | .macroCall _ (e :: es) _ _ => by
    refine ensures_macroCall (fun _ => ?_) fun _ _ _ hargs => ?_
    · exact (follows_lowerValues (e :: es)).imp fun _ h => follows_finish h fun _ => rfl
    · cases hargs
      exact (follows_lowerValues es).imp fun _ h => follows_finish h fun _ => rfl
  | .range first last inclusive _ => by
    rw [lowerExpr]
    split
    · rename_i h
      subst h
      refine (follows_lowerBound first).bind fun min _ hf =>
        (follows_lowerBound last).bind fun max _ hl => .pure ?_
      have hlimit : walkNode true (if last.isSome && !inclusive then minusOne max else max) =
          walkNode true max := by
        split
        · exact walk_minusOne max
        · rfl
      rw [← hlimit] at hl
      have hall := (hf.append hl).append .nil
      rwa [List.append_nil (walkExpr? first ++ walkExpr? last)] at hall
    · exact .error

theorem follows_lowerValues : (es : List Expr) →
    Ensures (lowerValues es) fun is => Follows (walkExprs es) (walkValues is)
  | [] => .pure .nil
  | e :: es => (follows_lowerExpr .value e).bind fun _ _ he =>
    (follows_lowerValues es).bind fun _ _ hes => .pure (he.append hes)

theorem follows_lowerBound : (e : Option Expr) →
    Ensures (lowerBound e) fun i => Follows (walkExpr? e) (walkNode true i)
  | none => .pure .nil
  | some e => follows_lowerExpr .value e

theorem follows_lowerElse (isTail : Bool) : (e : Option Expr) →
    Ensures (lowerElse isTail e) fun p =>
      Follows (walkElse isTail e) (walkElifs p.1 ++ walkOtherwise p.2)
  | none => .pure .nil
  | some e => by
    cases e with
    | block body =>
      obtain ⟨stmts, pos⟩ := body
      exact (follows_lowerStmts isTail stmts).bind fun _ hcs hs =>
        .pure (follows_block .branch hcs hs)
    | ifElse cond body otherwise =>
      obtain ⟨stmts, pos⟩ := body
      refine (follows_lowerExpr .value cond).bind fun _ _ hc =>
        (follows_lowerStmts isTail stmts).bind fun _ hcs hs =>
          (follows_lowerElse isTail otherwise).bind fun _ _ ho => .pure ?_
      have hall := (hc.append (follows_block .branch hcs hs)).append ho
      rwa [← List.append_assoc] at hall
    | _ => exact .error

theorem follows_lowerStmts (isTail : Bool) : (ss : List Stmt) →
    Ensures (lowerStmts isTail ss) fun cs => Follows (walkStmts isTail ss) (contributed cs)
  | [] => .pure .nil
  | s :: ss => (follows_lowerStmt _ s).bind fun _ _ hs =>
    (follows_lowerStmts isTail ss).bind fun _ _ hss => .pure (hs.append hss)

theorem follows_lowerStmt (isTail : Bool) : (s : Stmt) →
    Ensures (lowerStmt isTail s) fun c => Follows (walkStmt isTail s) c.walk
  | .binding pattern type none otherwise pos => (ensures_true _).bind fun _ _ _ => .error
  | .binding pattern type (some e) (some _) pos => (ensures_true _).bind fun _ _ _ => .error
  | .binding pattern type (some e) none pos =>
    ensures_site (s := .binding pattern type (some e) none pos) nofun <|
      (ensures_true _).bind fun _ _ _ =>
        (follows_lowerExpr .value e).bind fun _ _ he => .pure ⟨_, rfl, he⟩
  | .item i => follows_lowerItem i
  | .expr e semi => by
    refine (follows_lowerExpr _ e).bind fun node hnode he => .pure (.statement (.expr hnode) ?_)
    cases hplace : isTail && !semi with
    | false | true =>
      rw [hplace] at he
      exact he

theorem follows_lowerItem : (i : Item) → Ensures (lowerItem i) fun c => Follows (walkItem i) c.walk
  | .fn _ _ _ none _ _ _ => .pure .nil
  | .fn name params returns (some (.mk stmts blockPos)) abi isPublic pos =>
    ensures_site (s := .item (.fn name params returns (some (.mk stmts blockPos)) abi isPublic pos))
      nofun <| (ensures_true _).bind fun _ _ _ => (follows_lowerStmts _ stmts).bind fun _ hcs hs =>
        .pure ⟨_, rfl, follows_block .function hcs hs⟩
  | .foreign _ _ _ => .pure .nil
  | .inlineModule name items pos =>
    ensures_site (s := .item (.inlineModule name items pos)) nofun <|
      (follows_lowerItems items).bind fun cs hcs hs =>
        .pure ⟨_, rfl, .body .module ⟨cs, hcs, rfl⟩ (follows_collect hs)⟩
  | .fileModule _ _ | .use _ _ | .const _ _ _ _ _ | .impl _ _ _ _ | .typeDef _ _ _ => .error

theorem follows_lowerItems : (is : List Item) →
    Ensures (lowerItems is) fun cs => Follows (walkItems is) (contributed cs)
  | [] => .pure .nil
  | i :: is => (follows_lowerItem i).bind fun _ _ hi =>
    (follows_lowerItems is).bind fun _ _ his => .pure (hi.append his)

end

/-- A program is walked through alongside its file. -/
theorem follows_lowerFile (file : File) :
    Ensures (lowerFile file) fun program => Follows file.walk program.walk :=
  (follows_lowerItems file.items).bind fun cs hcs h =>
    .pure (.body .file ⟨cs, hcs, rfl⟩ (follows_collect h))

end RustLua.Lowering
