import RustLua.Parser.Pattern

/-!
Expressions. Ranges and assignments bind loosest; binary operators climb by
level; unary operators and what follows an operand bind tightest.
-/

namespace RustLua.Parser

open RustLua.Tree

/-! ## What can start where -/

def startsExpr : Parser Bool := do
  let s ← get
  match s.current.kind with
  | .intLit | .floatLit | .stringLit | .charLit | .byteStringLit | .kwTrue | .kwFalse | .ident
  | .kwSelf | .kwSelfType | .kwCrate | .kwSuper | .pathSep | .parenOpen | .bracketOpen | .minus
  | .bang | .star | .amp | .andAnd | .pipe | .orOr | .kwIf | .kwWhile | .kwLoop | .kwFor
  | .kwMatch | .kwUnsafe | .kwMove | .kwReturn | .kwBreak | .kwContinue | .lifetime | .dotDot
  | .dotDotEq => return true
  | .braceOpen => return !s.noStruct
  | _ => return false

/-- Does an expression start here that ends in a block and needs no semicolon? -/
def startsBlockLike : Parser Bool := do
  match ← currentKind with
  | .kwIf | .kwWhile | .kwLoop | .kwFor | .kwMatch | .braceOpen => return true
  | .kwUnsafe => return (← peekKind 1) = .braceOpen
  | .lifetime => return (← peekKind 1) = .colon
  | _ => return false

/-- An expression in front of a block. -/
def condition (g : Grammar) : Parser Expr := withNoStruct true g.expression

/-- Expressions up to a closing token, with struct literals allowed again. -/
def arguments (g : Grammar) (closer : Token.Kind) : Parser (List Expr) :=
  withNoStruct false (commaList closer g.expression)

/-! ## Delimited expressions -/

/-- More elements behind the first one, each behind a comma. -/
def moreElements (g : Grammar) (closer : Token.Kind) : Parser (List Expr) :=
  loop (fun acc => do
    if ← accept .comma then
      if ← check closer then return .done acc
      else
        let e ← g.expression
        return .more (acc ++ [e])
    else return .done acc) []

/-- Parentheses: the unit, one expression, or a tuple. -/
def parenOrTuple (g : Grammar) : Parser Expr := withNoStruct false do
  let t ← expect .parenOpen
  if ← accept .parenClose then return .tuple [] t.pos
  else
    let first ← g.expression
    if ← accept .parenClose then return .paren first t.pos
    else
      let others ← moreElements g .parenClose
      let _ ← expect .parenClose
      return .tuple (first :: others) t.pos

/-- Brackets: a list, or a value and how often it is repeated. -/
def array (g : Grammar) : Parser Expr := withNoStruct false do
  let t ← expect .bracketOpen
  if ← accept .bracketClose then return .array [] none t.pos
  else
    let first ← g.expression
    if ← accept .semicolon then
      let length ← g.expression
      let _ ← expect .bracketClose
      return .array [first] (some length) t.pos
    else
      let others ← moreElements g .bracketClose
      let _ ← expect .bracketClose
      return .array (first :: others) none t.pos

/-- The closing delimiter of an opening one. -/
def closerOf : Token.Kind → Token.Kind
  | .bracketOpen => .bracketClose
  | .braceOpen => .braceClose
  | _ => .parenClose

def macroArguments (g : Grammar) (closer : Token.Kind) : Parser (List Expr) :=
  loop (fun acc => do
    if (← check closer) || (← check .eof) then return .done acc
    else
      let e ← g.expression
      if (← accept .comma) then return .more (acc ++ [e])
      else if (← accept .semicolon) then return .more (acc ++ [e])
      else return .done (acc ++ [e])) []

/-- The delimited group of a macro call. Arguments that are no list of expressions
leave no trace: the parser goes back, skips the group, and marks the call as opaque. -/
def macroGroup (g : Grammar) (path : List Bytes) (pos : Pos) : Parser Expr := do
  let start ← get
  let opener ← advance
  let closer := closerOf opener.kind
  let args ← macroArguments g closer
  let stop ← get
  if stop.current.kind = closer ∧ stop.bag.count = start.bag.count then
    let _ ← advance
    return .macroCall path args false pos
  else
    rewind start
    skipBalanced
    return .macroCall path [] true pos

def macroCall (g : Grammar) (path : List Bytes) (pos : Pos) : Parser Expr :=
  withNoStruct false do
    let _ ← expect .bang
    macroGroup g path pos

/-- The fields of a struct literal; `..` and what follows it count as a field. -/
def structFields (g : Grammar) : Parser (List FieldInit) :=
  loop (fun acc => do
    if (← check .braceClose) || (← check .eof) then return .done acc
    else if ← accept .dotDot then
      let value ← g.expression
      return .done (acc ++ [.mk ".." value])
    else
      let name ← current
      if name.kind = .ident ∨ name.kind = .intLit then
        let _ ← advance
        let value ← if ← accept .colon then g.expression
          else pure (.path [name.literal] name.pos)
        let acc := acc ++ [.mk name.literal value]
        if ← accept .comma then return .more acc else return .done acc
      else
        report (.expected "field name" name)
        return .done acc) []

def structLiteral (g : Grammar) (path : List Bytes) (pos : Pos) : Parser Expr :=
  withNoStruct false do
    let _ ← expect .braceOpen
    let fields ← structFields g
    let _ ← expect .braceClose
    return .structLit path fields pos

/-- A path, a macro call or a struct literal. -/
def pathExpr (g : Grammar) : Parser Expr := do
  let t ← current
  let segments ← path
  if (← check .bang) && opens (← peekKind 1) then macroCall g segments t.pos
  else if (← check .braceOpen) && !(← get).noStruct then structLiteral g segments t.pos
  else return .path segments t.pos

/-! ## Control flow -/

def ifElse (g : Grammar) : Parser Expr := do
  let t ← expect .kwIf
  let cond ← condition g
  let body ← g.block
  if ← accept .kwElse then
    if ← check .kwIf then
      return .ifElse cond body (some (← g.ifElse)) t.pos
    else
      let pos := (← current).pos
      return .ifElse cond body (some (.block (← g.block) false [] pos)) t.pos
  else return .ifElse cond body none t.pos

/-- A loop, whose label has been taken. -/
def labelledLoop (g : Grammar) (label : Bytes) : Parser Expr := do
  let t ← current
  match t.kind with
  | .kwWhile => do
    let _ ← advance
    let cond ← condition g
    return .whileLoop cond (← g.block) label t.pos
  | .kwLoop => do
    let _ ← advance
    return .loop (← g.block) label t.pos
  | .kwFor => do
    let _ ← advance
    let p ← topPattern g
    let _ ← expect .kwIn
    let iterated ← condition g
    return .forLoop p iterated (← g.block) label t.pos
  | _ => do
    report (.expected "loop after label" t)
    return .path [errorName] t.pos

def blockExpr (g : Grammar) (isUnsafe : Bool) (label : Bytes) (pos : Pos) : Parser Expr := do
  return .block (← g.block) isUnsafe label pos

def matchArms (g : Grammar) : Parser (List Arm) :=
  loop (fun acc => do
    if (← check .braceClose) || (← check .eof) then return .done acc
    else
      let before := (← get).ahead.length
      skipAttributes
      let p ← topPattern g
      let guard ← if ← accept .kwIf then some <$> g.expression else pure none
      let _ ← expect .fatArrow
      let t ← current
      let hasBlock := t.kind = .braceOpen
      let body ← if hasBlock then blockExpr g false [] t.pos else g.expression
      let acc := acc ++ [.mk p guard body]
      let comma ← accept .comma
      if !comma && !hasBlock && !(← check .braceClose) then
        report (.expected ", or \x7d after match arm" (← current))
        return .done acc
      else if (← get).ahead.length = before then return .done acc
      else return .more acc) []

def matchOn (g : Grammar) : Parser Expr := do
  let t ← expect .kwMatch
  let scrutinee ← condition g
  withNoStruct false do
    let _ ← expect .braceOpen
    let arms ← matchArms g
    let _ ← expect .braceClose
    return .matchOn scrutinee arms t.pos

def blockLike (g : Grammar) : Parser Expr := do
  let t ← current
  match t.kind with
  | .kwIf => ifElse g
  | .kwWhile | .kwLoop | .kwFor => labelledLoop g []
  | .kwMatch => matchOn g
  | .kwUnsafe => do
    let _ ← advance
    blockExpr g true [] t.pos
  | .lifetime => do
    let _ ← advance
    let _ ← expect .colon
    if ← check .braceOpen then blockExpr g false t.literal t.pos
    else labelledLoop g t.literal
  | _ => blockExpr g false [] t.pos

/-! ## Closures -/

def closureParam (g : Grammar) : Parser Param := do
  let pos := (← current).pos
  let p ← g.pattern
  let type ← if ← accept .colon then some <$> typeText g else pure none
  return ⟨p, type, false, pos⟩

def closureParams (g : Grammar) : Parser (List Param) := do
  if ← accept .orOr then return []
  else
    let _ ← expect .pipe
    let params ← commaList .pipe (closureParam g)
    let _ ← expect .pipe
    return params

/-- A closure; one with a declared result type has a block for its body. -/
def closure (g : Grammar) : Parser Expr := do
  let t ← current
  let isMove ← accept .kwMove
  let params ← closureParams g
  if ← accept .arrow then
    let _ ← typeText g
    let pos := (← current).pos
    return .closure params (← blockExpr g false [] pos) isMove t.pos
  else
    return .closure params (← g.expression) isMove t.pos

/-! ## Operands and operators -/

/-- An expression, if one starts here. -/
def optionalExpr (p : Parser Expr) : Parser (Option Expr) := do
  if ← startsExpr then some <$> p else return none

/-- The name of a label, empty if there is none. -/
def optionalLabel : Parser Bytes := do
  if ← check .lifetime then return (← advance).literal else return []

def literalExpr (kind : LiteralKind) : Parser Expr := do
  let t ← advance
  return .lit ⟨kind, t.literal, t.pos⟩

def primary (g : Grammar) : Parser Expr := do
  let t ← current
  match t.kind with
  | .intLit => literalExpr .int
  | .floatLit => literalExpr .float
  | .stringLit => literalExpr .string
  | .charLit => literalExpr .char
  | .byteStringLit => literalExpr .bytes
  | .kwTrue | .kwFalse => literalExpr .bool
  | .ident | .kwSelf | .kwSelfType | .kwCrate | .kwSuper | .pathSep => pathExpr g
  | .parenOpen => parenOrTuple g
  | .bracketOpen => array g
  | .kwIf | .kwWhile | .kwLoop | .kwFor | .kwMatch | .braceOpen | .kwUnsafe | .lifetime =>
    blockLike g
  | .pipe | .orOr | .kwMove => closure g
  | .kwLet => do
    let _ ← advance
    let p ← topPattern g
    let _ ← expect .assign
    return .letCond p (← g.precedence BinaryOp.level.comparison) t.pos
  | .kwReturn => do
    let _ ← advance
    return .returnWith (← optionalExpr g.expression) t.pos
  | .kwBreak => do
    let _ ← advance
    let label ← optionalLabel
    return .breakOut label (← optionalExpr g.expression) t.pos
  | .kwContinue => do
    let _ ← advance
    return .continueOn (← optionalLabel) t.pos
  | _ => do
    report (.unexpected t)
    let _ ← advance
    return .path [errorName] t.pos

/-- A field access or a method call, whose dot has been taken. The second
component says whether a name was there. -/
def member (g : Grammar) (base : Expr) : Parser (Expr × Bool) := do
  let name ← current
  match name.kind with
  | .ident => do
    let _ ← advance
    if (← check .pathSep) && (← peekKind 1) = .less then
      let _ ← advance
      skipAngles
    if ← accept .parenOpen then
      let args ← arguments g .parenClose
      let _ ← expect .parenClose
      return (.methodCall base name.literal args base.pos, true)
    else return (.field base name.literal base.pos, true)
  | .intLit => do
    let _ ← advance
    return (.field base name.literal base.pos, true)
  | .floatLit => do
    -- two tuple fields in a row read as one number
    let _ ← advance
    let fields := Bytes.splitOnByte Ascii.dot name.literal
    return (fields.foldl (fun e f => .field e f base.pos) base, true)
  | _ => do
    report (.expected "field or method name after ." name)
    return (base, false)

/-- Calls, indexing, members and `?` behind an operand. -/
def postfixOps (g : Grammar) (operand : Expr) : Parser Expr :=
  loop (fun (e : Expr) => do
    match ← currentKind with
    | .parenOpen => do
      let _ ← advance
      let args ← arguments g .parenClose
      let _ ← expect .parenClose
      return .more (.call e args e.pos)
    | .bracketOpen => do
      let offset ← withNoStruct false do
        let _ ← advance
        let offset ← g.expression
        let _ ← expect .bracketClose
        return offset
      return .more (.index e offset e.pos)
    | .dot => do
      let _ ← advance
      let (e, found) ← member g e
      if found then return .more e else return .done e
    | .question => do
      let _ ← advance
      return .more (.tryOp e e.pos)
    | _ => return .done e) operand

def unary (g : Grammar) : Parser Expr := do
  let t ← current
  match UnaryOp.ofKind? t.kind with
  | some op => do
    let _ ← advance
    return .unary op (← g.unary) t.pos
  | none =>
    match t.kind with
    | .amp => do
      let _ ← advance
      let isMut ← accept .kwMut
      return .ref isMut (← g.unary) t.pos
    | .andAnd => do
      -- two references, the inner one a column further
      let _ ← advance
      let isMut ← accept .kwMut
      return .ref false (.ref isMut (← g.unary) (t.pos.right 1)) t.pos
    | _ => do postfixOps g (← primary g)

/-- Operators behind an operand, as long as they bind at least as tightly as `level`. -/
def binaryRest (g : Grammar) (level : Nat) (operand : Expr) : Parser Expr :=
  loop (fun (left : Expr) => do
    let k ← currentKind
    match BinaryOp.ofKind? k with
    | some op =>
      if level ≤ op.level then do
        let _ ← advance
        let right ← g.precedence (op.level + 1)
        return .more (.binary op left right left.pos)
      else return .done left
    | none =>
      if k = .kwAs ∧ level ≤ BinaryOp.castLevel then do
        let _ ← advance
        return .more (.cast left (← typeText g) left.pos)
      else return .done left) operand

def precedence (g : Grammar) (level : Nat) : Parser Expr := do
  binaryRest g level (← unary g)

/-- Is the current token a range operator, and is the range inclusive? -/
def rangeMark : Parser (Option Bool) := do
  match ← currentKind with
  | .dotDot => return some false
  | .dotDotEq => return some true
  | _ => return none

/-- A range, or what binds tighter. -/
def range (g : Grammar) : Parser Expr := do
  match ← rangeMark with
  | some inclusive => do
    let t ← advance
    return .range none (← optionalExpr (precedence g BinaryOp.lowest)) inclusive t.pos
  | none => do
    let left ← precedence g BinaryOp.lowest
    match ← rangeMark with
    | some inclusive => do
      let _ ← advance
      let last ← optionalExpr (precedence g BinaryOp.lowest)
      return .range (some left) last inclusive left.pos
    | none => return left

/-- An assignment behind its target, or the target alone. -/
def assignRest (g : Grammar) (left : Expr) : Parser Expr := do
  let k ← currentKind
  if k = .assign then
    let _ ← advance
    return .assign left (← g.expression) left.pos
  else match AssignOp.ofKind? k with
    | some op => do
      let _ ← advance
      return .assignOp op left (← g.expression) left.pos
    | none => return left

def expression (g : Grammar) : Parser Expr := do assignRest g (← range g)

end RustLua.Parser
