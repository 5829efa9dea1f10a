import RustLua.Parser.State

/-!
Skipping: delimited groups, generic arguments, attributes, where clauses, and
the rest of what could not be parsed. Skipped tokens can be turned back into text.
-/

namespace RustLua.Parser

def opens : Token.Kind → Bool
  | .parenOpen | .bracketOpen | .braceOpen => true
  | _ => false

def closes : Token.Kind → Bool
  | .parenClose | .bracketClose | .braceClose => true
  | _ => false

/-- The number of tokens in a delimited group, `depth` groups being open. Any
closing delimiter closes any opening one. -/
def balancedWidth : Nat → List Token → Nat
  | _, [] => 0
  | depth, t :: rest =>
    if t.kind = .eof then 0
    else
      let inner := if opens t.kind then depth + 1 else if closes t.kind then depth - 1 else depth
      if inner = 0 then 1 else 1 + balancedWidth inner rest

def skipBalanced : Parser Unit := do skip (balancedWidth 0 (← get).ahead)

/-- The number of tokens in a list of generic arguments, and whether a semicolon
or an opening brace cuts it short. -/
def anglesWidth : Nat → List Token → Nat × Bool
  | _, [] => (0, false)
  | depth, t :: rest =>
    match t.kind with
    | .eof => (0, false)
    | .semicolon | .braceOpen => (0, true)
    | k =>
      let inner := match k with
        | .less => depth + 1
        | .shiftLeft => depth + 2
        | .greater => depth - 1
        | .shiftRight => depth - 2
        | _ => depth
      if inner = 0 then (1, false)
      else
        let (n, cut) := anglesWidth inner rest
        (n + 1, cut)

def skipAngles : Parser Unit := do
  let (n, cut) := anglesWidth 0 (← get).ahead
  skip n
  if cut then report .openGenerics

/-- Skip attributes, inner ones too. -/
def skipAttributes : Parser Unit :=
  loop (fun (_ : Unit) => do
    if ← accept .pound then
      let _ ← accept .bang
      if ← check .bracketOpen then
        skipBalanced
        return .more ()
      else
        report (.expected "[ after #" (← current))
        return .done ()
    else return .done ()) ()

/-- Skip a where clause up to the body. -/
def skipWhere : Parser Unit := do
  if ← accept .kwWhere then
    loop (fun (_ : Unit) => do
      match ← currentKind with
      | .braceOpen | .semicolon | .eof => return .done ()
      | .less => do skipAngles; return .more ()
      | _ => do
        let _ ← advance
        return .more ()) ()

/-- The number of tokens up to a place where parsing can start again: before a
keyword that starts an item or statement, before a closing brace, behind a semicolon. -/
def recoveryWidth : List Token → Nat
  | [] => 0
  | t :: rest =>
    match t.kind with
    | .semicolon => 1
    | .kwFn | .kwLet | .kwMod | .kwUse | .kwStruct | .kwEnum | .kwImpl | .kwTrait | .kwExtern
    | .kwReturn | .braceClose | .eof => 0
    | _ => 1 + recoveryWidth rest

def recover : Parser Unit := do skip (recoveryWidth (← get).ahead)

/-- Skip to the next semicolon, over braces as a whole if so wished. -/
def skipToSemicolon (overBraces : Bool) : Parser Unit :=
  loop (fun (_ : Unit) => do
    match ← currentKind with
    | .semicolon | .eof => return .done ()
    | k => do
      if overBraces && k = .braceOpen then skipBalanced
      else
        let _ ← advance
      return .more ()) ()

/-- Would two such tokens run together without a blank? -/
def isWord (k : Token.Kind) : Bool :=
  match k with
  | .ident | .intLit | .floatLit | .lifetime => true
  | .underscore => false
  | k => Token.Kind.keywords.contains k

/-- Tokens as text, a blank only between two words. -/
def tokenText : Bool → List Token → Bytes
  | _, [] => []
  | afterWord, t :: rest =>
    let word := isWord t.kind
    (if word && afterWord then [Ascii.blank] else []) ++
      (if t.raw.isEmpty then t.literal else t.raw) ++ tokenText word rest

/-- The text of the tokens that a parser takes. -/
def textOf (p : Parser Unit) : Parser Bytes := do
  let before := (← get).ahead
  p
  return tokenText false (before.take (before.length - (← get).ahead.length))

end RustLua.Parser
