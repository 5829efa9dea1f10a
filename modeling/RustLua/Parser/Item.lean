import RustLua.Parser.Expr

/-! Items, statements and blocks. -/

namespace RustLua.Parser

open RustLua.Tree

/-! ## Functions -/

/-- The parts of a function that stand behind its qualifiers. -/
structure FnParts where
  name : Bytes
  params : List Param
  returns : Option TypeText
  body : Option Block
  pos : Pos

/-- The number of tokens of a receiver, 0 if the parameter is none. -/
def receiverWidth (s : State) : Nat :=
  let ref := if (s.peek 0).kind = .amp then 1 else 0
  let life := if ref = 1 ∧ (s.peek 1).kind = .lifetime then 2 else ref
  let name := if (s.peek life).kind = .kwMut then life + 1 else life
  if (s.peek name).kind = .kwSelf then name + 1 else 0

def fnParam (g : Grammar) : Parser Param := do
  skipAttributes
  let pos := (← current).pos
  let width := receiverWidth (← get)
  if 0 < width then
    skip width
    let type ← if ← accept .colon then some <$> typeText g else pure none
    return ⟨.ident "self" false false pos, type, true, pos⟩
  else
    let p ← pattern g
    let _ ← expect .colon
    return ⟨p, some (← typeText g), false, pos⟩

def fnParts (g : Grammar) : Parser FnParts := do
  let t ← expect .kwFn
  let name ← expect .ident
  if ← check .less then skipAngles
  let _ ← expect .parenOpen
  let params ← commaList .parenClose (fnParam g)
  let _ ← expect .parenClose
  let returns ← if ← accept .arrow then some <$> typeText g else pure none
  skipWhere
  let body ← if ← accept .semicolon then pure none else some <$> g.block
  return ⟨name.literal, params, returns, body, t.pos⟩

/-! ## Other items -/

/-- Skip a visibility; was there one? -/
def visibility : Parser Bool := do
  if ← accept .kwPub then
    if ← check .parenOpen then skipBalanced
    return true
  else return false

/-- The head of a type definition; its body is skipped. -/
def typeDef (keyword : Bytes) : Parser Item := do
  let t ← advance
  let name ← expect .ident
  loop (fun (_ : Unit) => do
    match ← currentKind with
    | .eof => do
      report (.openDeclaration keyword)
      return .done ()
    | .semicolon => do
      let _ ← advance
      return .done ()
    | .braceOpen => do
      skipBalanced
      return .done ()
    | .parenOpen | .bracketOpen => do
      skipBalanced
      return .more ()
    | .less => do
      skipAngles
      return .more ()
    | _ => do
      let _ ← advance
      return .more ()) ()
  return .typeDef keyword name.literal t.pos

def foreignItem (g : Grammar) : Parser (Option ForeignItem) := do
  skipAttributes
  let _ ← visibility
  let _ ← accept .kwUnsafe
  if ← checkWord "safe" then
    let _ ← advance
  let t ← current
  match t.kind with
  | .kwFn => do
    let fn ← fnParts g
    if fn.body.isSome then reportAt t.pos .externBody
    return some ⟨fn.name, false, t.pos⟩
  | .kwStatic => do
    let _ ← advance
    let _ ← accept .kwMut
    let name ← expect .ident
    let _ ← expect .colon
    let _ ← typeText g
    let _ ← expect .semicolon
    return some ⟨name.literal, true, t.pos⟩
  | .kwType => do
    let _ ← typeDef "type"
    return none
  | _ => do
    report (.expected "fn or static in extern block" t)
    recover
    return none

/-- The calling convention of `extern` without a name behind it. -/
def defaultAbi : Bytes := "C"

/-- An extern crate, or an extern block. -/
def externItem (g : Grammar) : Parser Item := do
  let t ← expect .kwExtern
  if ← accept .kwCrate then
    let text ← textOf (skipToSemicolon false)
    let _ ← expect .semicolon
    return .use ("extern crate " ++ text) t.pos
  else
    let abi ← if ← check .stringLit then (·.literal) <$> advance else pure defaultAbi
    let _ ← expect .braceOpen
    let items ← partsUntil .braceClose (foreignItem g)
    let _ ← expect .braceClose
    return .foreign abi items t.pos

def constItem (g : Grammar) : Parser Item := do
  let t ← advance
  let _ ← accept .kwMut
  let name : Bytes ← if ← accept .underscore then pure "_" else (·.literal) <$> expect .ident
  let type ← if ← accept .colon then some <$> typeText g else pure none
  let value ← if ← accept .assign then some <$> g.expression else pure none
  let _ ← expect .semicolon
  return .const name (t.kind = .kwStatic) type value t.pos

def items (g : Grammar) (closer : Token.Kind) : Parser (List Item) :=
  partsUntil closer g.item

def moduleItem (g : Grammar) : Parser Item := do
  let t ← expect .kwMod
  let name ← expect .ident
  if ← accept .semicolon then return .fileModule name.literal t.pos
  else
    let _ ← expect .braceOpen
    let inner ← items g .braceClose
    let _ ← expect .braceClose
    return .inlineModule name.literal inner t.pos

def useItem : Parser Item := do
  let t ← expect .kwUse
  let text ← textOf (skipToSemicolon true)
  let _ ← expect .semicolon
  return .use text t.pos

def implItem (g : Grammar) : Parser Item := do
  let t ← expect .kwImpl
  if ← check .less then skipAngles
  let _ ← accept .bang
  let first ← typeText g
  let second ← if ← accept .kwFor then some <$> typeText g else pure none
  skipWhere
  let _ ← expect .braceOpen
  let inner ← items g .braceClose
  let _ ← expect .braceClose
  match second with
  | some type => return .impl type.text first.text inner t.pos
  | none => return .impl first.text [] inner t.pos

/-- A macro in item position; behind brackets or parentheses a semicolon must follow. -/
def macroItem : Parser Item := do
  let t ← advance
  let _ ← expect .bang
  let name ← if ← check .ident then (·.literal) <$> advance else pure t.literal
  let k ← currentKind
  if opens k then
    skipBalanced
    if k = .braceOpen then
      let _ ← accept .semicolon
    else
      let _ ← expect .semicolon
  else report (.expected "macro body" (← current))
  return .typeDef "macro" name t.pos

/-- Skip the qualifiers of a function and give the calling convention they name. -/
def qualifiers : Parser Bytes :=
  loop (fun abi => do
    let s ← get
    let next := (s.peek 1).kind
    match s.current.kind with
    | .kwUnsafe => do
      let _ ← advance
      return .more abi
    | .ident =>
      if s.current.literal = "async" then do
        let _ ← advance
        return .more abi
      else return .done abi
    | .kwConst =>
      if next = .kwFn ∨ next = .kwUnsafe then do
        let _ ← advance
        return .more abi
      else return .done abi
    | .kwExtern =>
      if next = .braceOpen ∨ next = .kwCrate ∨
          (next = .stringLit ∧ (s.peek 2).kind = .braceOpen) then return .done abi
      else do
        let _ ← advance
        if ← check .stringLit then return .more (← advance).literal
        else return .more defaultAbi
    | _ => return .done abi) []

def noItem (t : Token) : Parser (Option Item) := do
  report (.expected "item" t)
  recover
  return none

/-- An item with its attributes; none at the end of a block or file, or after an error. -/
def item (g : Grammar) : Parser (Option Item) := do
  skipAttributes
  if (← check .eof) || (← check .braceClose) then return none
  else
    let isPublic ← visibility
    let abi ← qualifiers
    let t ← current
    match t.kind with
    | .kwFn => do
      let fn ← fnParts g
      return some (.fn fn.name fn.params fn.returns fn.body abi isPublic fn.pos)
    | .kwExtern => some <$> externItem g
    | .kwConst | .kwStatic => some <$> constItem g
    | .kwMod => some <$> moduleItem g
    | .kwUse => some <$> useItem
    | .kwImpl => some <$> implItem g
    | .kwStruct | .kwEnum | .kwTrait | .kwType => some <$> typeDef t.kind.name
    | .ident =>
      if t.literal = "union" then some <$> typeDef "union"
      else do
        if (← peekKind 1) = .bang then some <$> macroItem else noItem t
    | _ => noItem t

/-! ## Statements -/

/-- Does an item start here inside a block? -/
def startsItem : Parser Bool := do
  let s ← get
  let next := (s.peek 1).kind
  match s.current.kind with
  | .kwFn | .kwMod | .kwUse | .kwStruct | .kwEnum | .kwTrait | .kwType | .kwImpl | .kwStatic
  | .kwExtern | .kwPub => return true
  | .kwConst => return next = .ident ∨ next = .underscore ∨ next = .kwFn ∨ next = .kwUnsafe
  | .kwUnsafe => return next = .kwFn ∨ next = .kwImpl ∨ next = .kwTrait ∨ next = .kwExtern
  | .ident =>
    let word := s.current.literal
    return (word = "macro_rules" ∧ next = .bang) ∨ (word = "async" ∧ next = .kwFn) ∨
      (word = "union" ∧ next = .ident)
  | _ => return false

def isMacroCall : Expr → Bool
  | .macroCall .. => true
  | _ => false

/-- The end of an expression statement. -/
def finishStmt (e : Expr) : Parser Stmt := do
  if ← accept .semicolon then return .expr e true
  else if ← check .braceClose then return .expr e false
  else if isMacroCall e ∧ (← get).previous = .braceClose then return .expr e true
  else
    report (.expected "; after expression" (← current))
    recover
    return .expr e true

def binding (g : Grammar) : Parser Stmt := do
  let t ← expect .kwLet
  let p ← topPattern g
  let type ← if ← accept .colon then some <$> typeText g else pure none
  let init ← if ← accept .assign then some <$> g.expression else pure none
  let otherwise ← if ← accept .kwElse then some <$> g.block else pure none
  let _ ← expect .semicolon
  return .binding p type init otherwise t.pos

/-- A statement that starts with a block-like expression. -/
def blockLikeStmt (g : Grammar) : Parser Stmt := do
  let e ← blockLike g
  if (← check .dot) || (← check .question) then
    let e ← postfixOps g e
    let e ← binaryRest g BinaryOp.lowest e
    let e ← assignRest g e
    finishStmt e
  else return .expr e (← accept .semicolon)

/-- A statement; none for a lone semicolon and after an error in an item. -/
def stmt (g : Grammar) : Parser (Option Stmt) := do
  skipAttributes
  if ← accept .semicolon then return none
  else if ← check .braceClose then return none
  else if ← check .kwLet then some <$> binding g
  else if ← startsItem then
    match ← g.item with
    | some i => return some (.item i)
    | none => return none
  else if ← startsBlockLike then some <$> blockLikeStmt g
  else do
    let e ← g.expression
    some <$> finishStmt e

def block (g : Grammar) : Parser Block := withNoStruct false do
  let t ← expect .braceOpen
  let stmts ← partsUntil .braceClose (stmt g)
  let _ ← expect .braceClose
  return .mk stmts t.pos

end RustLua.Parser
