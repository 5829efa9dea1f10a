import RustLua.Proofs.Lowering.Positions
import RustLua.Proofs.Lowering.Walk

/-! # Where returns come from

A return in the intermediate form is one that was written, or it returns the value of an
expression in tail position. The walks through a body and through its nodes say which
expressions these are: what stands in tail position is a matter of the tree alone, and at each
statement the node is a return exactly if it should be. -/
namespace RustLua.Lowering

open RustLua.Tree
open Ir (walkNode walkNodes)

/-- Is this an expression for its value, and not one that stands as a statement only? -/
def isValueShaped : Expr → Bool
  | .assign .. | .assignOp .. | .ifElse .. | .whileLoop .. | .loop .. | .forLoop ..
  | .breakOut .. | .continueOn .. | .returnWith .. | .block .. => false
  | _ => true

def IsReturn (node : Ir.Item) : Prop := ∃ value, node = .returnValue value

theorem not_isReturn {node : Ir.Item} (h : ∀ value, node ≠ .returnValue value) : ¬ IsReturn node :=
  fun ⟨value, hvalue⟩ => h value hvalue

/-- The node of a statement returns as it should. -/
structure ReturnsAlike (site : Site) (node : Ir.Item) : Prop where
  /-- A return is introduced for values in tail position and for nothing else. -/
  introduced : ∀ e semi, site.stmt = .expr e semi → (∀ value pos, e ≠ .returnWith value pos) →
    (IsReturn node ↔ isValueShaped e = true ∧ site.inTail = true)
  /-- What it returns is that value. -/
  returned : ∀ e semi, site.stmt = .expr e semi → isValueShaped e = true → site.inTail = true →
    ∃ v, lowerExpr .value e = .ok v ∧ node = .returnValue v
  /-- A return that was written is a return of what was written behind it. -/
  written : ∀ value pos semi, site.stmt = .expr (.returnWith value pos) semi →
    ∃ v, (value = none → v = .missing) ∧ (∀ e, value = some e → lowerExpr .value e = .ok v) ∧
      node = .returnValue v
  /-- Bindings and items are no returns. -/
  other : (∀ e semi, site.stmt ≠ .expr e semi) → ¬ IsReturn node
  /-- What is returned is no return itself. -/
  once : ∀ v, node = .returnValue v → ¬ IsReturn v

/-- Two walks, with returns where they should be. -/
def ReturnsAlong : Tree.Walk → Ir.Walk → Prop := Alongside (fun _ _ => True) ReturnsAlike

variable {place : Place} {e : Expr} {node : Ir.Item}

/-! ## Expressions -/

/-- A value is the same wherever it stands, and is returned in tail position. -/
theorem lowerExpr_eq_finish (h : isValueShaped e = true) (hp : place ≠ .iterated) :
    lowerExpr place e = place.finish <$> lowerExpr .value e := by
  have hvalue (i : Ir.Item) : Place.value.finish i = i := rfl
  cases e with
  | assign | assignOp | ifElse | whileLoop | loop | forLoop | breakOut | continueOn | returnWith
  | block => cases h
  -- refused wherever they stand
  | field | index | ref | cast | letCond | matchOn | structLit | tryOp => rfl
  | lit | path | call | binary | tuple => simp [lowerExpr, hvalue]
  | paren => simp [lowerExpr, hvalue, hp]
  -- these two are accepted in the head of a loop only
  | range =>
    rw [lowerExpr, lowerExpr, if_neg hp, if_neg nofun]
    rfl
  | methodCall receiver method args pos =>
    rw [lowerExpr.eq_def, lowerExpr.eq_def]
    dsimp only
    split
    · rw [if_neg fun hc => hp hc.1, if_neg fun hc => nomatch hc.1]
      rfl
    · rfl
  | unary =>
    rw [lowerExpr.eq_def, lowerExpr.eq_def]
    dsimp only
    split
    · split
      · simp [hvalue]
      · rfl
    · rfl
  | array elements length =>
    cases length with
    | none => simp [lowerExpr, hvalue]
    | some => rfl
  | closure params body =>
    cases body with
    | block body =>
      obtain ⟨stmts, pos⟩ := body
      simp [lowerExpr, hvalue]
    | _ => rfl
  | macroCall =>
    rw [lowerExpr.eq_def, lowerExpr.eq_def]
    dsimp only
    split
    · split
      · rfl
      · simp [hvalue]
    · split
      · split
        · rfl
        · split
          · rfl
          · split
            · simp [hvalue]
            · rfl
      · rfl

/-- A return is no value. -/
theorem not_isReturn_value (h : lowerExpr .value e = .ok node) : ¬ IsReturn node := by
  rintro ⟨value, rfl⟩
  -- the walk through a return as a value begins with a stray stop
  exact (follows_lowerExpr .value e _ h).not_stray (List.mem_cons_self ..)

/-- Of what stands as a statement only, nothing but a return is a return. -/
theorem ensures_notReturn (h : isValueShaped e = false)
    (hr : ∀ value pos, e ≠ .returnWith value pos) :
    Ensures (lowerExpr place e) (¬ IsReturn ·) := by
  cases e with
  | assign | assignOp =>
    exact ensures_statementOnly fun _ => (ensures_true _).bind fun _ _ _ =>
      (ensures_true _).bind fun _ _ _ => .pure (not_isReturn nofun)
  | ifElse cond body otherwise =>
    obtain ⟨stmts, pos⟩ := body
    exact ensures_statementOnly fun _ => (ensures_true _).bind fun _ _ _ =>
      (ensures_true _).bind fun _ _ _ => (ensures_true _).bind fun _ _ _ =>
        .pure (not_isReturn nofun)
  | whileLoop cond body =>
    obtain ⟨stmts, pos⟩ := body
    exact ensures_statementOnly fun _ => (ensures_true _).bind fun _ _ _ =>
      (ensures_true _).bind fun _ _ _ => .pure (not_isReturn nofun)
  | loop body =>
    obtain ⟨stmts, pos⟩ := body
    exact ensures_statementOnly fun _ => (ensures_true _).bind fun _ _ _ =>
      .pure (not_isReturn nofun)
  | forLoop pattern iterated body =>
    obtain ⟨stmts, pos⟩ := body
    refine ensures_statementOnly fun _ => (ensures_true _).bind fun _ _ _ =>
      (ensures_true _).bind fun head _ _ => (ensures_true _).bind fun _ _ _ => .pure ?_
    cases head <;> exact not_isReturn nofun
  | breakOut label value =>
    refine ensures_statementOnly fun _ => .ite (fun _ => .error) fun _ => ?_
    cases value with
    | none => exact .pure (not_isReturn nofun)
    | some => exact .error
  | continueOn label =>
    exact ensures_statementOnly fun _ => .ite (fun _ => .pure (not_isReturn nofun)) fun _ => .error
  | returnWith value pos => exact absurd rfl (hr value pos)
  | block => exact .ite (fun _ => .error) fun _ => .error
  | _ => cases h

/-! ## Statements -/

variable {inTail : Bool}

theorem returns_value (hv : isValueShaped e = true)
    (h : lowerExpr (if inTail then .tail else .statement) e = .ok node) :
    ∃ v, lowerExpr .value e = .ok v ∧ node = if inTail then .returnValue v else v := by
  rw [lowerExpr_eq_finish hv (by cases inTail <;> nofun)] at h
  obtain ⟨v, hvalue, rfl⟩ := map_eq_ok.mp h
  refine ⟨v, hvalue, ?_⟩
  cases inTail <;> rfl

/-- A return is introduced for a value in tail position, and only there. -/
theorem isReturn_iff (hr : ∀ value pos, e ≠ .returnWith value pos)
    (h : lowerExpr (if inTail then .tail else .statement) e = .ok node) :
    IsReturn node ↔ isValueShaped e = true ∧ inTail = true := by
  cases hv : isValueShaped e with
  | false =>
    have hnot : ¬ IsReturn node := ensures_notReturn hv hr node h
    simp [hnot]
  | true =>
    obtain ⟨v, hvalue, rfl⟩ := returns_value hv h
    cases inTail with
    | false => simpa using not_isReturn_value hvalue
    | true => simp [IsReturn]

theorem returns_written {value : Option Expr} {pos : Pos}
    (h : lowerExpr place (.returnWith value pos) = .ok node) :
    ∃ v, (value = none → v = .missing) ∧ (∀ e, value = some e → lowerExpr .value e = .ok v) ∧
      node = .returnValue v := by
  cases value with
  | none =>
    cases statementOnly_eq_ok h
    exact ⟨.missing, fun _ => rfl, nofun, rfl⟩
  | some e =>
    obtain ⟨v, hv, hnode⟩ := bind_eq_ok.mp (statementOnly_eq_ok h)
    cases hnode
    exact ⟨v, nofun, fun e' he => Option.some.inj he ▸ hv, rfl⟩

/-- What is returned is no return. -/
theorem not_isReturn_returned {v : Ir.Item}
    (h : lowerExpr (if inTail then .tail else .statement) e = .ok (.returnValue v)) :
    ¬ IsReturn v := by
  by_cases hr : ∃ value pos, e = .returnWith value pos
  · obtain ⟨value, pos, rfl⟩ := hr
    obtain ⟨v, hnone, hsome, ⟨⟩⟩ := returns_written h
    cases value with
    | none =>
      rw [hnone rfl]
      exact not_isReturn nofun
    | some e => exact not_isReturn_value (hsome e rfl)
  · push Not at hr
    obtain ⟨hv, rfl⟩ := (isReturn_iff hr h).mp ⟨v, rfl⟩
    obtain ⟨v, hvalue, ⟨⟩⟩ := returns_value hv h
    exact not_isReturn_value hvalue

theorem not_isReturn_other {s : Stmt} {isTail : Bool} (hs : ∀ e semi, s ≠ .expr e semi)
    (h : lowerStmt isTail s = .ok (.node node)) : ¬ IsReturn node := by
  obtain ⟨names, -, ⟨⟩⟩ | ⟨-, _, ⟨⟩, hnode⟩ := lowerStmt_eq_ok hs h
  rintro ⟨value, rfl⟩
  cases hnode

theorem LowersSite.returnsAlike {site : Site} (h : LowersSite site node) :
    ReturnsAlike site node := by
  cases h with
  | @expr e semi inTail _ h =>
    refine ⟨?_, ?_, ?_, fun hs => absurd rfl (hs e semi), ?_⟩
    · rintro _ _ ⟨⟩ hr
      exact isReturn_iff hr h
    · rintro _ _ ⟨⟩ hv hin
      obtain ⟨v, hvalue, rfl⟩ := returns_value hv h
      exact ⟨v, hvalue, if_pos hin⟩
    · rintro value pos _ ⟨⟩
      exact returns_written h
    · rintro v rfl
      exact not_isReturn_returned h
  | other hs h =>
    have hnot := not_isReturn_other hs h
    exact ⟨fun e semi he => absurd he (hs e semi), fun e semi he => absurd he (hs e semi),
      fun _ _ _ he => absurd he (hs _ _), fun _ => hnot, fun v hv => absurd ⟨v, hv⟩ hnot⟩

theorem returnsAlong_of_follows {v : Tree.Walk} {w : Ir.Walk} (h : Follows v w) :
    ReturnsAlong v w :=
  h.imp (fun _ _ _ => trivial) fun _ _ => LowersSite.returnsAlike

theorem returnsAlong_collect {isTail : Bool} {stmts : List Stmt} {cs : List Contribution}
    (h : lowerStmts isTail stmts = .ok cs) :
    ReturnsAlong (walkStmts isTail stmts) (walkNodes (collect cs)) :=
  returnsAlong_of_follows (follows_collect (follows_lowerStmts isTail stmts cs h))

/-- Returns are introduced for the values in tail position and for nothing else, and written
ones stay: in the body of every function and of every closure, and all through a file. -/
theorem returns_stand_in_tail_position :
    (∀ name params returns stmts blockPos abi isPublic pos c,
      lowerItem (.fn name params returns (some (.mk stmts blockPos)) abi isPublic pos) = .ok c →
      ∃ names nodes, c = .node (.function name names nodes) ∧
        ReturnsAlong (walkStmts (returnsValue returns) stmts) (walkNodes nodes)) ∧
    (∀ place params body isMove pos node,
      lowerExpr place (.closure params body isMove pos) = .ok node →
      ∃ stmts blockPos isUnsafe label bodyPos names nodes,
        body = .block (.mk stmts blockPos) isUnsafe label bodyPos ∧
        node = place.finish (.closure names nodes) ∧
        ReturnsAlong (walkStmts true stmts) (walkNodes nodes)) ∧
    ∀ file program, lowerFile file = .ok program → ReturnsAlong file.walk program.walk := by
  refine ⟨?_, ?_, fun file program h => returnsAlong_of_follows (follows_lowerFile file program h)⟩
  · intro name params returns stmts blockPos abi isPublic pos c h
    obtain ⟨names, -, h⟩ := bind_eq_ok.mp h
    obtain ⟨cs, hcs, h⟩ := bind_eq_ok.mp h
    cases h
    exact ⟨names, collect cs, rfl, returnsAlong_collect hcs⟩
  · intro place params body isMove pos node h
    cases body with
    | block body isUnsafe label bodyPos =>
      obtain ⟨stmts, blockPos⟩ := body
      obtain ⟨names, -, h⟩ := bind_eq_ok.mp h
      obtain ⟨cs, hcs, h⟩ := bind_eq_ok.mp h
      cases h
      exact ⟨stmts, blockPos, isUnsafe, label, bodyPos, names, collect cs, rfl, rfl,
        returnsAlong_collect hcs⟩
    | _ => cases h

def twiceBody : List Stmt :=
  [.expr (.binary .mul (.path ["x"] ⟨1, 1⟩) (.lit ⟨.int, "2", ⟨1, 5⟩⟩) ⟨1, 3⟩) false]

def twice : Expr :=
  .closure [⟨.ident "x" false false ⟨1, 1⟩, none, false, ⟨1, 1⟩⟩]
    (.block (.mk twiceBody ⟨1, 1⟩) false [] ⟨1, 1⟩) false ⟨1, 1⟩

def twiceNodes : List Ir.Item := [.returnValue (.binary .mul (.ident "x") (.integer 2))]

/-- A body with a value in a loop, one in an `if` that more follows, a closure, and an `if` in
tail position with a return that was written. -/
def pickBody : List Stmt :=
  let p : Pos := ⟨1, 1⟩
  let n : Expr := .path ["n"] p
  let integer (digits : Bytes) : Expr := .lit ⟨.int, digits, p⟩
  let apply (name : Bytes) : Stmt := .expr (.call (.path [name] p) [n] p) false
  let last : Expr := .block (.mk [apply "twice"] p) false [] p
  let isOne : Expr := .ifElse (.binary .eq n (integer "1") p) (.mk [.expr n false] p) (some last) p
  let one : Stmt := .expr (.returnWith (some (integer "1")) p) true
  [.expr (.whileLoop (.binary .lt (integer "9") n p) (.mk [apply "shrink"] p) [] p) false,
    .expr (.ifElse (.binary .lt n (integer "0") p) (.mk [apply "log"] p) none p) false,
    .binding (.ident "twice" false false p) none (some twice) none p,
    .expr (.ifElse (.binary .eq n (integer "0") p) (.mk [one] p) (some isOne) p) false]

def pick : Item :=
  .fn "pick" [⟨.ident "n" false false ⟨1, 1⟩, none, false, ⟨1, 1⟩⟩] (some ⟨"i32", ⟨1, 1⟩⟩)
    (some (.mk pickBody ⟨1, 1⟩)) [] false ⟨1, 1⟩

def pickNodes : List Ir.Item :=
  [.whileLoop (.binary .lt (.integer 9) (.ident "n")) [.call (.ident "shrink") [.ident "n"]],
    .ifElif (.binary .lt (.ident "n") (.integer 0)) [.call (.ident "log") [.ident "n"]] [] none,
    .varDecl "twice" (.closure ["x"] twiceNodes),
    .ifElif (.binary .eq (.ident "n") (.integer 0)) [.returnValue (.integer 1)]
      [.mk (.binary .eq (.ident "n") (.integer 1)) [.returnValue (.ident "n")]]
      (some [.returnValue (.call (.ident "twice") [.ident "n"])])]

theorem returns_stand_in_tail_position_pick :
    ((walkStmts true pickBody).filterMap fun
      | .statement site => some site.inTail
      | _ => none) = [false, false, false, false, false, true, true, false, true, true] ∧
    lowerItem pick = .ok (.node (.function "pick" ["n"] pickNodes)) ∧
    ReturnsAlong (walkStmts true pickBody) (walkNodes pickNodes) ∧
    lowerExpr .value twice = .ok (.closure ["x"] twiceNodes) ∧
    ReturnsAlong (walkStmts true twiceBody) (walkNodes twiceNodes) ∧
    lowerFile ⟨[pick]⟩ = .ok ⟨[.function "pick" ["n"] pickNodes]⟩ ∧
    ReturnsAlong (File.walk ⟨[pick]⟩) (Ir.Program.walk ⟨[.function "pick" ["n"] pickNodes]⟩) := by
  obtain ⟨hfunction, hclosure, hfile⟩ := returns_stand_in_tail_position
  have hpick : lowerItem pick = .ok (.node (.function "pick" ["n"] pickNodes)) := rfl
  have htwice : lowerExpr .value twice = .ok (.closure ["x"] twiceNodes) := rfl
  have hprogram : lowerFile ⟨[pick]⟩ = .ok ⟨[.function "pick" ["n"] pickNodes]⟩ := rfl
  obtain ⟨_, _, ⟨⟩, hpickReturns⟩ := hfunction _ _ _ _ _ _ _ _ _ hpick
  obtain ⟨_, _, _, _, _, _, _, ⟨⟩, ⟨⟩, htwiceReturns⟩ := hclosure _ _ _ _ _ _ htwice
  exact ⟨rfl, hpick, hpickReturns, htwice, htwiceReturns, hprogram, hfile _ _ hprogram⟩

end RustLua.Lowering
