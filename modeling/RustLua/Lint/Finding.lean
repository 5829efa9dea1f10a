import RustLua.Diagnostic
import RustLua.Lua.Piece

/-! Findings: what is likely to misbehave once a program runs as Lua. -/

namespace RustLua.Lint

/-- What a name is the name of. -/
inductive Role where
  | function | module | externName | parameter | variable | loopVariable
deriving DecidableEq, Repr

def Role.text : Role → String
  | .function => "function"
  | .module => "module"
  | .externName => "extern"
  | .parameter => "parameter"
  | .variable => "variable"
  | .loopVariable => "loop variable"

inductive Finding where
  | reservedName (role : Role) (name : Bytes)
  | shadowedGlobal (role : Role) (name : Bytes)
  | floatDivision
  | emptyBody (function : Bytes)
  | naming (function : Bytes)
  | nestedFunction (function : Bytes)
  | moduleFunction (function module : Bytes)
  | unusedParameter (name function : Bytes)
  | unusedVariable (name : Bytes)
  | neverReassigned (name : Bytes)
deriving DecidableEq, Repr

def Finding.message : Finding → Bytes
  | .reservedName role name =>
    role.text ++ " '" ++ name ++ "' is a Lua keyword; the generated code will not load"
  | .shadowedGlobal role name =>
    role.text ++ " '" ++ name ++ "' shadows the Lua global the generated code relies on"
  | .floatDivision => "'/' is float division in Lua; integer operands will not truncate"
  | .emptyBody function => "function '" ++ function ++ "' has an empty body"
  | .naming function => "function '" ++ function ++ "' should use snake_case naming"
  | .nestedFunction function =>
    "nested function '" ++ function ++ "' is emitted as a global Lua function"
  | .moduleFunction function module =>
    "function '" ++ function ++ "' is emitted as a global, not a field of module table '" ++
      module ++ "'"
  | .unusedParameter name function =>
    "parameter '" ++ name ++ "' in '" ++ function ++ "' is never used"
  | .unusedVariable name => "variable '" ++ name ++ "' is declared but never used"
  | .neverReassigned name => "variable '" ++ name ++ "' is declared mutable but never reassigned"

def Finding.hint : Finding → Bytes
  | .reservedName _ name => "rename it, e.g. '" ++ name ++ "_'"
  | .floatDivision => "wrap the call site in math.floor if an integer result is expected"
  | _ => []

/-- A finding at a place of the source. -/
structure Warning where
  finding : Finding
  pos : Pos
deriving DecidableEq, Repr

def Warning.diagnostic (w : Warning) : Diagnostic :=
  ⟨.warning, w.pos.line, w.pos.column, w.finding.message, w.finding.hint⟩

/-- The globals that output itself refers to. -/
def runtimeNames : List String := ["string", "math", "_G"]

def isRuntimeName (name : Bytes) : Bool := runtimeNames.any fun n => Bytes.ofString n = name

/-- A name that breaks or shadows parts of the output. -/
def nameWarnings (role : Role) (name : Bytes) (pos : Pos) : List Warning :=
  if Lua.isReserved name then [⟨.reservedName role name, pos⟩]
  else if isRuntimeName name then [⟨.shadowedGlobal role name, pos⟩]
  else []

/-- A finding on a condition. -/
def warnIf (condition : Bool) (finding : Finding) (pos : Pos) : List Warning :=
  if condition then [⟨finding, pos⟩] else []

/-- Lower-case letters, digits and underscores, no digit first. Names of the source are
ASCII, so no other letters can make a difference. -/
def isSnakeCase : Bytes → Bool
  | [] => false
  | b :: rest =>
    !Ascii.isDigit b && (b :: rest).all fun c =>
      Ascii.isLower c || Ascii.isDigit c || c == Ascii.underscore

end RustLua.Lint
