import RustLua.Ir.Basic
import RustLua.Lua.Gap
import RustLua.Lua.Piece
import RustLua.Lua.Text

/-!
Rendering the intermediate form as Lua. Lua has no continue statement: every
loop body ends in a label, and continuing is a jump to it. Labels of nested
loops carry their depth, because Lua refuses a label that hides a visible one.
-/

namespace RustLua.Lua

structure Settings where
  /-- The table that extern names are looked up in. -/
  globalTable : Bytes := "_G"
  /-- The label of outermost loops. -/
  continueLabel : Bytes := "__continue__"

/-- Settings with the given names, an empty one leaving the default. -/
def Settings.ofNames (globalTable continueLabel : Bytes) : Settings :=
  let standard : Settings := {}
  { globalTable := if globalTable.isEmpty then standard.globalTable else globalTable
    continueLabel := if continueLabel.isEmpty then standard.continueLabel else continueLabel }

/-- The label of a loop inside `depth - 1` others. The depth goes in front of two
underscores that end the name. -/
def Settings.label (s : Settings) (depth : Nat) : Bytes :=
  let ending : Bytes := "__"
  if depth ≤ 1 then s.continueLabel
  else if ending.isSuffixOf s.continueLabel then
    Bytes.dropEnding ending s.continueLabel ++ "_" ++ Bytes.decimal depth ++ ending
  else s.continueLabel ++ "_" ++ Bytes.decimal depth

/-! ## Numbers and names -/

/-- A member of a library table. -/
def member (table field : String) : Pieces :=
  [.name table, .mark .dot, .name field]

/-- The least integer has no numeral of its own. -/
def integerPieces (n : Int64) : Pieces :=
  if n = Int64.minValue then member "math" "mininteger"
  else if n < 0 then [.mark .minus, .numeral (Bytes.decimal n.toInt.natAbs)]
  else [.numeral (Bytes.decimal n.toInt.natAbs)]

/-- A finite number keeps a point or an exponent, so that it reads as a float. -/
def decimalPieces (d : Double) : Pieces :=
  if d.isNaN then
    [.mark .parenOpen, .numeral "0", .operator .div, .numeral "0", .mark .parenClose]
  else
    let sign : Pieces := if d.isNegative then [.mark .minus] else []
    let size : Double := if d.isNegative then d.neg else d
    if d.isInfinite then sign ++ member "math" "huge" else sign ++ [.numeral size.text]

/-- Pieces with a comma between neighbours. -/
def commaSeparated (list : List Pieces) : Pieces := [Piece.mark .comma].intercalate list

def parenthesized (pieces : Pieces) : Pieces :=
  .mark .parenOpen :: pieces ++ [.mark .parenClose]

/-- `local name = value;` -/
def localPieces (name : Bytes) (value : Pieces) : Pieces :=
  [.keyword .localKw, .blank, .name name, .blank, .mark .assign, .blank] ++ value ++
    [.mark .semicolon]

/-! ## Places -/

/-- Where a node stands: as a value, or as a statement inside so many loops of its
function, at the end of its block or not. -/
inductive Place where
  | value
  | statement (depth : Nat) (isLast : Bool)

/-- A statement, which is refused as a value. -/
def Place.statementOnly (place : Place) (what : String)
    (render : Nat → Bool → Except Gap Pieces) : Except Gap Pieces :=
  match place with
  | .value => .error (.usedAsValue what)
  | .statement depth isLast => render depth isLast

/-- A value in its place; as a statement it becomes a local that nobody reads. -/
def Place.finishValue (place : Place) (value : Pieces) : Pieces :=
  match place with
  | .value => value
  | .statement _ _ => localPieces "_" value

/-- A call in its place. -/
def Place.finishCall (place : Place) (call : Pieces) : Pieces :=
  match place with
  | .value => call
  | .statement _ _ => call ++ [.mark .semicolon]

/-! ## Shapes -/

/-- What can be called without parentheses around it. -/
def isCallable : Ir.Item → Bool
  | .ident _ | .call _ _ => true
  | _ => false

/-- Does an operand of an operator of level `parent` need parentheses? On the right
also one that binds equally, and a negative number, which could start a comment. -/
def needsParens (parent : Nat) (isRight : Bool) : Ir.Item → Bool
  | .binary op _ _ =>
    match Operator.ofIr? op with
    | some o => o.level < parent || (isRight && o.level = parent)
    | none => false
  | .integer n => isRight && n < 0
  | .decimal d => isRight && d.isNegative && !d.isNaN
  | _ => false

/-- An operator, or why there is none. -/
def operatorOf (op : Ir.BinaryOp) : Except Gap Operator :=
  match Operator.ofIr? op with
  | some o => .ok o
  | none => .error (if op.isCompound then .compoundOperator op else .unknownOperator op)

/-- The arguments of a format, in the order of its slots. -/
def slotArguments (values : List (Except Gap Pieces)) : List Int → Except Gap (List Pieces)
  | [] => .ok []
  | slot :: slots => do
    let value ← match if slot < 1 then none else values[slot.toNat - 1]? with
      | some value => value
      | none => .error (.slotWithoutValue slot values.length)
    return value :: (← slotArguments values slots)

/-- A format as a call of the library, whose values are rendered already. -/
def formatPieces (fragments : List Bytes) (slots : List Int)
    (values : List (Except Gap Pieces)) : Except Gap Pieces :=
  if fragments.length ≠ slots.length + 1 then
    .error (.fragmentCount fragments.length slots.length)
  else if slots.length < values.length then .error (.valueCount values.length slots.length)
  else do
    let args ← slotArguments values slots
    return member "string" "format" ++
      parenthesized (commaSeparated ([.literal (template fragments)] :: args))

/-- Parameters and body of a function. -/
def functionPieces (params : List Bytes) (body : Pieces) : Pieces :=
  parenthesized (commaSeparated (params.map fun p => [.name p])) ++ body ++ [.keyword .endKw]

/-- The rest of a loop behind its head, up to its label. -/
def loopPieces (s : Settings) (depth : Nat) (body : Pieces) : Pieces :=
  [.blank, .keyword .doKw, .blank] ++ body ++
    [.blank, .mark .colons, .name (s.label depth), .mark .colons, .blank, .keyword .endKw,
     .mark .semicolon]

/-- A condition and its branch. -/
def branchPieces (cond body : Pieces) : Pieces :=
  [.blank] ++ cond ++ [.blank, .keyword .thenKw, .blank] ++ body

/-- An extern name, looked up in the global table. -/
def externPieces (s : Settings) (name : Bytes) : Pieces :=
  localPieces name [.name s.globalTable, .mark .dot, .name name]

/-- A return that does not end its block stands in a block of its own. -/
def returnPieces (isLast : Bool) (value : Option Pieces) : Pieces :=
  let inner : Pieces := .keyword .returnKw :: match value with
    | some pieces => .blank :: pieces
    | none => []
  if isLast then inner ++ [.mark .semicolon]
  else [.keyword .doKw, .blank] ++ inner ++ [.blank, .keyword .endKw, .mark .semicolon]

/-- A value that may be left out. -/
def optionalValue (item : Ir.Item) (rendered : Except Gap Pieces) :
    Except Gap (Option Pieces) :=
  match item with
  | .missing => .ok none
  | _ => some <$> rendered

/-! ## Nodes -/

mutual

def renderItem (s : Settings) (place : Place) : Ir.Item → Except Gap Pieces
  | .missing =>
    match place with
    | .value => .error .noExpression
    | .statement _ _ => .error .noStatement
  | .function name params body => place.statementOnly "function definition" fun _ _ => do
    let body ← renderBody s 0 true body
    return [.keyword .functionKw, .blank, .name name] ++ functionPieces params body ++
      [.mark .semicolon]
  | .varDecl name value => place.statementOnly "local declaration" fun _ _ => do
    return localPieces name (← renderItem s .value value)
  | .varSet name value => place.statementOnly "assignment" fun _ _ => do
    return [.name name, .blank, .mark .assign, .blank] ++ (← renderItem s .value value) ++
      [.mark .semicolon]
  | .externs names => place.statementOnly "extern block" fun _ _ =>
    .ok (names.flatMap (externPieces s))
  | .mod name items => place.statementOnly "module" fun depth _ => do
    return localPieces name [.mark .braceOpen, .mark .braceClose] ++
      (← renderBody s depth false items)
  | .breakLoop => place.statementOnly "break" fun depth _ =>
    if depth = 0 then .error .breakOutside
    else .ok [.keyword .breakKw, .mark .semicolon]
  | .continueLoop => place.statementOnly "continue" fun depth _ =>
    if depth = 0 then .error .continueOutside
    else .ok [.keyword .gotoKw, .blank, .name (s.label depth), .mark .semicolon]
  | .returnValue value => place.statementOnly "return" fun _ isLast => do
    return returnPieces isLast (← optionalValue value (renderItem s .value value))
  | .ifElif cond body elifs otherwise => place.statementOnly "if" fun depth _ => do
    let cond ← renderItem s .value cond
    let body ← renderBody s depth true body
    let elifs ← renderElifs s depth elifs
    let last ← renderElse s depth otherwise
    return [.keyword .ifKw] ++ branchPieces cond body ++ elifs ++ last ++
      [.blank, .keyword .endKw, .mark .semicolon]
  | .whileLoop cond body => place.statementOnly "while" fun depth _ => do
    let cond ← renderItem s .value cond
    let body ← renderBody s (depth + 1) false body
    return [.keyword .whileKw, .blank] ++ cond ++ loopPieces s (depth + 1) body
  | .forRange var min max step body => place.statementOnly "for" fun depth _ => do
    let min ← renderItem s .value min
    let max ← renderItem s .value max
    let step ← optionalValue step (renderItem s .value step)
    let body ← renderBody s (depth + 1) false body
    return [.keyword .forKw, .blank, .name var, .blank, .mark .assign, .blank] ++
      commaSeparated ([min, max] ++ step.toList) ++ loopPieces s (depth + 1) body
  | .forIn var iterated body => place.statementOnly "for" fun depth _ => do
    let iterated ← renderItem s .value iterated
    let body ← renderBody s (depth + 1) false body
    return [.keyword .forKw, .blank, .name var, .blank, .keyword .inKw, .blank] ++ iterated ++
      loopPieces s (depth + 1) body
  | .call func args => do
    let callee ← renderItem s .value func
    let args ← renderValues s args
    return place.finishCall ((if isCallable func then callee else parenthesized callee) ++
      parenthesized (commaSeparated args))
  | .ident name =>
    if name.isEmpty then .error .emptyIdentifier else .ok (place.finishValue [.name name])
  | .bool value => .ok (place.finishValue [.keyword (if value then .trueKw else .falseKw)])
  | .integer n => .ok (place.finishValue (integerPieces n))
  | .decimal d => .ok (place.finishValue (decimalPieces d))
  | .string text => .ok (place.finishValue [.literal (quote text)])
  | .closure params body => do
    let body ← renderBody s 0 true body
    return place.finishValue ([.keyword .functionKw] ++ functionPieces params body)
  | .array elements => do
    let elements ← renderValues s elements
    return place.finishValue
      ([.mark .braceOpen] ++ commaSeparated elements ++ [.mark .braceClose])
  | .binary op lhs rhs => do
    let o ← operatorOf op
    let left ← renderItem s .value lhs
    let right ← renderItem s .value rhs
    return place.finishValue (
      (if needsParens o.level false lhs then parenthesized left else left) ++ [.operator o] ++
      (if needsParens o.level true rhs then parenthesized right else right))
  | .format fragments slots values => do
    return place.finishValue (← formatPieces fragments slots (renderEach s values))

/-- Values, up to the first gap. -/
def renderValues (s : Settings) : List Ir.Item → Except Gap (List Pieces)
  | [] => .ok []
  | item :: items => do
    let first ← renderItem s .value item
    return first :: (← renderValues s items)

/-- Values, each for itself: a format need not use them all. -/
def renderEach (s : Settings) : List Ir.Item → List (Except Gap Pieces)
  | [] => []
  | item :: items => renderItem s .value item :: renderEach s items

/-- The statements of a block. `endsBlock` says whether the block ends behind them. -/
def renderBody (s : Settings) (depth : Nat) (endsBlock : Bool) :
    List Ir.Item → Except Gap Pieces
  | [] => .ok []
  | item :: items => do
    let first ← renderItem s (.statement depth (endsBlock && items.isEmpty)) item
    return first ++ (← renderBody s depth endsBlock items)

def renderElifs (s : Settings) (depth : Nat) : List Ir.Branch → Except Gap Pieces
  | [] => .ok []
  | .mk cond body :: elifs => do
    let cond ← renderItem s .value cond
    let body ← renderBody s depth true body
    return [.blank, .keyword .elseifKw] ++ branchPieces cond body ++
      (← renderElifs s depth elifs)

def renderElse (s : Settings) (depth : Nat) : Option (List Ir.Item) → Except Gap Pieces
  | none => .ok []
  | some body => do
    return [.blank, .keyword .elseKw, .blank] ++ (← renderBody s depth true body)

end

/-- The pieces of a whole program. -/
def renderProgram (s : Settings) (program : Ir.Program) : Except Gap Pieces :=
  renderBody s 0 true program.items

/-- The Lua text of a program, if there is one. -/
def generate (s : Settings) : Option Ir.Program → Except Gap Bytes
  | none => .error .noProgram
  | some program => Pieces.text <$> renderProgram s program

end RustLua.Lua
