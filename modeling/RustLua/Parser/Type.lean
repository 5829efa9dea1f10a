import RustLua.Parser.Grammar

/-! Types are skipped and kept as text. -/

namespace RustLua.Parser

open RustLua.Tree

def startsSegment : Token.Kind → Bool
  | .ident | .kwSelf | .kwSelfType | .kwCrate | .kwSuper => true
  | _ => false

/-- A path with generic arguments, or with parameter types and a result. -/
def skipTypePath (g : Grammar) : Parser Unit := do
  let _ ← accept .pathSep
  loop (fun (_ : Unit) => do
    if startsSegment (← currentKind) then
      let _ ← advance
      match ← currentKind with
      | .less => skipAngles
      | .parenOpen => do
        skipBalanced
        if ← accept .arrow then g.skipType
      | _ => pure ()
      if ← accept .pathSep then
        if ← check .less then
          skipAngles
          if ← accept .pathSep then return .more () else return .done ()
        else return .more ()
      else return .done ()
    else
      report (.expected "type name" (← current))
      return .done ()) ()

/-- Bounds, joined by plus signs. -/
def skipBounds (g : Grammar) : Parser Unit :=
  loop (fun (_ : Unit) => do
    let _ ← accept .question
    if ← accept .lifetime then pure () else skipTypePath g
    if ← accept .plus then return .more () else return .done ()) ()

/-- The words in front of a function type. -/
def skipFnQualifiers : Parser Unit :=
  loop (fun (_ : Unit) => do
    match ← currentKind with
    | .kwUnsafe | .kwExtern | .stringLit => do
      let _ ← advance
      return .more ()
    | _ => return .done ()) ()

def skipType (g : Grammar) : Parser Unit := do
  let t ← current
  match t.kind with
  | .amp | .andAnd => do
    let _ ← advance
    let _ ← accept .lifetime
    let _ ← accept .kwMut
    g.skipType
  | .star => do
    let _ ← advance
    if ← accept .kwConst then pure () else
      let _ ← expect .kwMut
    g.skipType
  | .parenOpen | .bracketOpen => skipBalanced
  | .bang | .underscore => do
    let _ ← advance
  | .kwFn | .kwUnsafe | .kwExtern => do
    skipFnQualifiers
    let _ ← expect .kwFn
    if ← check .parenOpen then skipBalanced
    if ← accept .arrow then g.skipType
  | .kwImpl => do
    let _ ← advance
    skipBounds g
  | .less => do
    skipAngles
    if ← accept .pathSep then skipTypePath g
  | .ident =>
    if t.literal = "dyn" then do
      let _ ← advance
      skipBounds g
    else skipTypePath g
  | .kwSelf | .kwSelfType | .kwCrate | .kwSuper | .pathSep => skipTypePath g
  | _ => report (.expected "type" t)

def typeText (g : Grammar) : Parser TypeText := do
  let pos := (← current).pos
  return ⟨← textOf g.skipType, pos⟩

end RustLua.Parser
