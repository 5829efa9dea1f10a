import RustLua.Lowering.Literal

/-!
Lowering: from the syntax tree to the intermediate form. The first rejection
ends it. Extern names of one sequence of items or statements come together in
one node, at the place of the first declaration that has any.
-/

namespace RustLua.Lowering

open RustLua.Tree

/-! ## Sequences -/

/-- What an item or statement adds to its sequence. -/
inductive Contribution where
  | node (item : Ir.Item)
  | externs (names : List Bytes)

def Contribution.names : Contribution → List Bytes
  | .node _ => []
  | .externs names => names

def Contribution.node? : Contribution → Option Ir.Item
  | .node item => some item
  | .externs _ => none

/-- The nodes of a sequence, all extern names of which are given. -/
def placeExterns (names : List Bytes) : List Contribution → List Ir.Item
  | [] => []
  | .node item :: rest => item :: placeExterns names rest
  | .externs [] :: rest => placeExterns names rest
  | .externs (_ :: _) :: rest => .externs names :: rest.filterMap Contribution.node?

def collect (list : List Contribution) : List Ir.Item :=
  placeExterns (list.flatMap Contribution.names) list

/-! ## Names and operators -/

/-- The name that a simple pattern binds. -/
def bindingName (binder : Binder) : Pattern → Except Rejection Bytes
  | .ident name _ byRef pos =>
    if byRef then illFormed pos (.byReference binder) else .ok name
  | .wild _ => .ok "_"
  | p => illFormed p.pos (.notSimple binder)

/-- The names of parameters, a receiver being called `self`. -/
def paramNames (binder : Binder) : List Param → Except Rejection (List Bytes)
  | [] => .ok []
  | p :: ps => do
    let name : Bytes ← if p.isReceiver then pure "self" else bindingName binder p.pattern
    return name :: (← paramNames binder ps)

/-- The name that an assignment at `pos` writes to. -/
def targetName (pos : Pos) : Expr → Except Rejection Bytes
  | .path [name] _ => .ok name
  | _ => illFormed pos .assignmentTarget

/-- A path as one name. -/
def flatName (segments : List Bytes) : Bytes := Bytes.join "__" segments

def operator : BinaryOp → Ir.BinaryOp
  | .add => .add
  | .sub => .sub
  | .mul => .mul
  | .div => .div
  | .rem => .mod
  | .and => .and
  | .or => .or
  | .bitXor => .bxor
  | .bitAnd => .band
  | .bitOr => .bor
  | .shl => .bshl
  | .shr => .bshr
  | .eq => .eq
  | .lt => .lt
  | .le => .le
  | .ne => .ne
  | .ge => .ge
  | .gt => .gt

/-! ## Ranges -/

/-- What stands for a range end that is left out. -/
def openBound : Ir.Item := .integer 9999

/-- The last value before an end that is not part of the range. -/
def minusOne : Ir.Item → Ir.Item
  | .integer n =>
    if n = Int64.minValue then .binary .sub (.integer n) (.integer 1) else .integer (n - 1)
  | upper => .binary .sub upper (.integer 1)

/-- Is this a range, in parentheses or not? -/
def isRange : Expr → Bool
  | .paren inner _ => isRange inner
  | .range .. => true
  | _ => false

/-- The head of a numeric loop, which has no variable and no body yet. -/
def rangeHead (min max : Ir.Item) : Ir.Item := .forRange [] min max .missing []

def withStep (step : Ir.Item) : Ir.Item → Ir.Item
  | .forRange var min max _ body => .forRange var min max step body
  | other => other

/-- A loop over the head of a numeric loop, or over any other value. -/
def loopOver (var : Bytes) (body : List Ir.Item) : Ir.Item → Ir.Item
  | .forRange _ min max step _ => .forRange var min max step body
  | iterated => .forIn var iterated body

/-! ## Expressions -/

/-- Where an expression stands. A value in tail position is returned; in the place
of what a for loop iterates over, a range becomes the head of a numeric loop. -/
inductive Place where
  | value | statement | tail | iterated
deriving DecidableEq

/-- A value in its place. -/
def Place.finish (place : Place) (item : Ir.Item) : Ir.Item :=
  if place = .tail then .returnValue item else item

/-- Is a value wanted here? -/
def Place.wantsValue : Place → Bool
  | .value | .iterated => true
  | .statement | .tail => false

/-- A statement, which is refused where a value is wanted. -/
def Place.statementOnly (place : Place) (what : String) (pos : Pos)
    (item : Except Rejection Ir.Item) : Except Rejection Ir.Item :=
  if place.wantsValue then unsupported pos (.usedAsValue what) else item

mutual

def lowerExpr (place : Place) : Expr → Except Rejection Ir.Item
  | .lit l => place.finish <$> literal l false
  | .path segments _ => .ok (place.finish (.ident (flatName segments)))
  | .call func args _ => do
    let func ← lowerExpr .value func
    let args ← lowerValues args
    return place.finish (.call func args)
  | .methodCall receiver method args pos =>
    match args with
    | [step] =>
      if place = .iterated ∧ method = "step_by" ∧ isRange receiver then do
        let head ← lowerExpr .iterated receiver
        let step ← lowerExpr .value step
        return withStep step head
      else unsupported pos (.methodCall method)
    | _ => unsupported pos (.methodCall method)
  | .field _ name pos => unsupported pos (.fieldAccess name)
  | .index _ _ pos => unsupported pos .indexing
  | .binary op left right _ => do
    let lhs ← lowerExpr .value left
    let rhs ← lowerExpr .value right
    return place.finish (.binary (operator op) lhs rhs)
  | .assign target value pos => place.statementOnly "assignment" pos do
    let name ← targetName pos target
    return .varSet name (← lowerExpr .value value)
  | .assignOp op target value pos => place.statementOnly "compound assignment" pos do
    let name ← targetName pos target
    let rhs ← lowerExpr .value value
    return .varSet name (.binary (operator op.base) (.ident name) rhs)
  | .unary op operand pos =>
    match op, operand with
    | .neg, .lit l =>
      if l.kind = .int ∨ l.kind = .float then place.finish <$> literal l true
      else unsupported pos (.unaryOperator .neg)
    | op, _ => unsupported pos (.unaryOperator op)
  | .ref _ _ pos => unsupported pos .reference
  | .cast _ type pos => unsupported pos (.cast type.text)
  | .paren inner _ =>
    if place = .iterated then lowerExpr .iterated inner
    else do return place.finish (← lowerExpr .value inner)
  | .tuple elements _ => do return place.finish (.array (← lowerValues elements))
  | .array elements length pos =>
    match length with
    | some _ => unsupported pos .arrayRepeat
    | none => do return place.finish (.array (← lowerValues elements))
  | .block _ _ _ pos =>
    if place.wantsValue then unsupported pos (.usedAsValue "block")
    else unsupported pos .nestedBlock
  | .closure params body _ pos =>
    match body with
    | .block (.mk stmts _) _ _ _ => do
      let names ← paramNames .closureParameter params
      let body ← lowerStmts true stmts
      return place.finish (.closure names (collect body))
    | _ => unsupported pos .closureBody
  | .ifElse cond (.mk stmts _) otherwise pos => place.statementOnly "if" pos do
    let isTail := place = .tail
    let cond ← lowerExpr .value cond
    let body ← lowerStmts isTail stmts
    let (elifs, last) ← lowerElse isTail otherwise
    return .ifElif cond (collect body) elifs last
  | .letCond _ _ pos => unsupported pos .letExpression
  | .whileLoop cond (.mk stmts _) _ pos => place.statementOnly "while" pos do
    let cond ← lowerExpr .value cond
    let body ← lowerStmts false stmts
    return .whileLoop cond (collect body)
  | .loop (.mk stmts _) _ pos => place.statementOnly "loop" pos do
    let body ← lowerStmts false stmts
    return .whileLoop (.bool true) (collect body)
  | .forLoop pattern iterated (.mk stmts _) _ pos => place.statementOnly "for" pos do
    let name ← bindingName .loopVariable pattern
    let head ← lowerExpr .iterated iterated
    let body ← lowerStmts false stmts
    return loopOver name (collect body) head
  | .breakOut label value pos => place.statementOnly "break" pos <|
    if !label.isEmpty then unsupported pos (.labelledBreak label)
    else match value with
      | some _ => unsupported pos .breakValue
      | none => .ok .breakLoop
  | .continueOn label pos => place.statementOnly "continue" pos <|
    if label.isEmpty then .ok .continueLoop else unsupported pos (.labelledContinue label)
  | .returnWith value pos => place.statementOnly "return" pos <|
    match value with
    | none => .ok (.returnValue .missing)
    | some e => do return .returnValue (← lowerExpr .value e)
  | .macroCall path args isOpaque pos =>
    let name := lastSegment path
    if name = "println" ∨ name = "print" then
      if isOpaque then unsupported pos (.macroArguments name)
      else do return place.finish (.call (.ident "print") (← lowerValues args))
    else if name = "format" then
      match args with
      | [] => illFormed pos .formatTemplateMissing
      | template :: rest =>
        if isOpaque then illFormed pos .formatTemplateMissing
        else match template with
          | .lit ⟨.string, text, _⟩ => do
            return place.finish (formatItem text (← lowerValues rest))
          | _ => illFormed pos .formatTemplateKind
    else unsupported pos (.macroCall name)
  | .range first last inclusive pos =>
    if place = .iterated then do
      let min ← lowerBound first
      let max ← lowerBound last
      return rangeHead min (if last.isSome && !inclusive then minusOne max else max)
    else unsupported pos .rangeOutsideFor
  | .matchOn _ _ pos => unsupported pos .matchExpression
  | .structLit path _ pos => unsupported pos (.structLiteral path)
  | .tryOp _ pos => unsupported pos .tryOperator

def lowerValues : List Expr → Except Rejection (List Ir.Item)
  | [] => .ok []
  | e :: es => do
    let item ← lowerExpr .value e
    return item :: (← lowerValues es)

/-- The end of a range. -/
def lowerBound : Option Expr → Except Rejection Ir.Item
  | none => .ok openBound
  | some e => lowerExpr .value e

/-- What follows the first branch of a chain: further conditions, and the branch
without one. -/
def lowerElse (isTail : Bool) :
    Option Expr → Except Rejection (List Ir.Branch × Option (List Ir.Item))
  | none => .ok ([], none)
  | some (.block (.mk stmts _) _ _ _) => do
    let body ← lowerStmts isTail stmts
    return ([], some (collect body))
  | some (.ifElse cond (.mk stmts _) otherwise _) => do
    let cond ← lowerExpr .value cond
    let body ← lowerStmts isTail stmts
    let (elifs, last) ← lowerElse isTail otherwise
    return (.mk cond (collect body) :: elifs, last)
  | some e => unsupported e.pos .elseClause

/-- Statements. In tail position the last expression, if no semicolon follows it,
gives the value. -/
def lowerStmts (isTail : Bool) : List Stmt → Except Rejection (List Contribution)
  | [] => .ok []
  | s :: ss => do
    let first ← lowerStmt (isTail && ss.isEmpty) s
    return first :: (← lowerStmts isTail ss)

def lowerStmt (isTail : Bool) : Stmt → Except Rejection Contribution
  | .binding pattern _ init otherwise pos => do
    let name ← bindingName .letBinding pattern
    match init with
    | none => illFormed pos (.noInitializer name)
    | some e =>
      if otherwise.isSome then unsupported pos (.letElse name)
      else do return .node (.varDecl name (← lowerExpr .value e))
  | .item i => lowerItem i
  | .expr e semi => do
    return .node (← lowerExpr (if isTail && !semi then .tail else .statement) e)

def lowerItem : Item → Except Rejection Contribution
  | .fn name params returns body _ _ _ =>
    match body with
    | none => .ok (.externs [name])
    | some (.mk stmts _) => do
      let names ← paramNames .parameter params
      let body ← lowerStmts (returnsValue returns) stmts
      return .node (.function name names (collect body))
  | .foreign _ items _ => .ok (.externs (items.map (·.name)))
  | .inlineModule name items _ => do return .node (.mod name (collect (← lowerItems items)))
  | .fileModule name pos => unsupported pos (.fileModule name)
  | .use path pos => unsupported pos (.useDeclaration path)
  | .const name isStatic _ _ pos =>
    unsupported pos (if isStatic then .staticItem name else .constItem name)
  | .impl type _ _ pos => unsupported pos (.implBlock type)
  | .typeDef keyword name pos => unsupported pos (.typeItem keyword name)

def lowerItems : List Item → Except Rejection (List Contribution)
  | [] => .ok []
  | i :: is => do
    let first ← lowerItem i
    return first :: (← lowerItems is)

end

/-- The program of a file. -/
def lowerFile (file : File) : Except Rejection Ir.Program := do
  return ⟨collect (← lowerItems file.items)⟩

end RustLua.Lowering
