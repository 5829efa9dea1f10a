import RustLua.Parser.Type

/-! Paths and patterns. -/

namespace RustLua.Parser

open RustLua.Tree

/-- What stands for a name that is not there. -/
def errorName : Bytes := "<error>"

/-- One more segment of a path; generic arguments behind it are skipped. -/
def pathRound (segments : List Bytes) : Parser (Step (List Bytes) (List Bytes)) := do
  let t ← current
  if startsSegment t.kind then
    let _ ← advance
    let segments := segments ++ [t.literal]
    if ← accept .pathSep then
      if ← check .less then
        skipAngles
        if ← accept .pathSep then return .more segments else return .done segments
      else return .more segments
    else return .done segments
  else
    report (.expected "identifier in path" t)
    return .done (segments ++ [errorName])

/-- The segments of a path. -/
def path : Parser (List Bytes) := do
  let _ ← accept .pathSep
  loop pathRound []

/-- A literal in a pattern, a minus sign becoming a part of it. -/
def patternLiteral (g : Grammar) : Parser Literal := do
  let t ← current
  let negative ← accept .minus
  match ← g.primary with
  | .lit l =>
    return if negative then ⟨l.kind, Ascii.minus :: l.value, t.pos⟩ else l
  | _ =>
    reportAt t.pos .literalPattern
    return ⟨.int, "0", t.pos⟩

def startsPatternLiteral : Token.Kind → Bool
  | .intLit | .floatLit | .charLit | .minus => true
  | _ => false

/-- A binding may bind what another pattern matches, which is not kept. -/
def finishBinding (g : Grammar) (binding : Pattern) : Parser Pattern := do
  if ← accept .atSign then
    let _ ← g.pattern
  return binding

/-- Alternatives, as `let`, `for` and match arms take them. -/
def topPattern (g : Grammar) : Parser Pattern := do
  let _ ← accept .pipe
  let first ← g.pattern
  if ← check .pipe then
    let others ← loop (fun acc => do
      if ← accept .pipe then
        let p ← g.pattern
        return .more (acc ++ [p])
      else return .done acc) []
    return .either first others
  else return first

/-- The elements of a tuple or slice pattern, and whether a comma ends them. -/
def patternElements (g : Grammar) (closer : Token.Kind) : Parser (List Pattern × Bool) :=
  loop (fun (acc, comma) => do
    if (← check closer) || (← check .eof) then return .done (acc, comma)
    else
      let p ← topPattern g
      if ← accept .comma then return .more (acc ++ [p], true)
      else return .done (acc ++ [p], false)) ([], false)

/-- A pattern in parentheses or brackets; parentheses around one pattern go away. -/
def tuplePattern (g : Grammar) : Parser Pattern := do
  let t ← advance
  let closer := if t.kind = .bracketOpen then .bracketClose else .parenClose
  let (elems, comma) ← patternElements g closer
  let _ ← expect closer
  match elems with
  | [p] => return if t.kind = .parenOpen && !comma then p else .tuple elems t.pos
  | _ => return .tuple elems t.pos

def pathPattern (g : Grammar) : Parser Pattern := do
  let t ← current
  let segments ← path
  match ← currentKind with
  | .parenOpen => do
    let _ ← advance
    let elems ← commaList .parenClose (topPattern g)
    let _ ← expect .parenClose
    return .applied segments elems t.pos
  | .braceOpen => do
    skipBalanced
    return .applied segments [] t.pos
  | _ =>
    match segments with
    | [name] =>
      if t.kind = .ident then finishBinding g (.ident name false false t.pos)
      else return .path segments t.pos
    | _ => return .path segments t.pos

def pattern (g : Grammar) : Parser Pattern := do
  let t ← current
  match t.kind with
  | .underscore | .dotDot => do
    let _ ← advance
    return .wild t.pos
  | .kwRef => do
    let _ ← advance
    let isMut ← accept .kwMut
    let name ← expect .ident
    return .ident name.literal isMut true t.pos
  | .kwMut => do
    let _ ← advance
    let name ← current
    if name.kind = .ident ∨ name.kind = .kwSelf then
      let _ ← advance
      finishBinding g (.ident name.literal true false t.pos)
    else
      report (.expected "identifier after mut" name)
      return .wild t.pos
  | .amp | .andAnd => do
    let _ ← advance
    let _ ← accept .kwMut
    return .ref (← g.pattern) t.pos
  | .parenOpen | .bracketOpen => tuplePattern g
  | .intLit | .floatLit | .stringLit | .charLit | .byteStringLit | .kwTrue | .kwFalse
  | .minus => do
    let l ← patternLiteral g
    if (← check .dotDotEq) || (← check .dotDot) then
      let _ ← advance
      if startsPatternLiteral (← currentKind) then
        let _ ← patternLiteral g
    return .lit l
  | .ident | .kwSelf | .kwSelfType | .kwCrate | .kwSuper | .pathSep => pathPattern g
  | _ => do
    report (.expected "pattern" t)
    let _ ← advance
    return .wild t.pos

end RustLua.Parser
