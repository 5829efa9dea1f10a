import RustLua.Build.Emit
import RustLua.Command.Json
import RustLua.Config.Load

/-! Reports: what a command prints, as text or as JSON, and the code it exits with. -/

namespace RustLua.Command

/-- Codes of errors in reports. -/
inductive Code where
  | parse | unsupported | binding | internal | io | config | usage | generic
deriving DecidableEq, Repr

def Code.name : Code → String
  | .parse => "E_PARSE"
  | .unsupported => "E_UNSUPPORTED"
  | .binding => "E_BINDING"
  | .internal => "E_INTERNAL"
  | .io => "E_IO"
  | .config => "E_CONFIG"
  | .usage => "E_USAGE"
  | .generic => "E_GENERIC"

/-- A source that cannot be compiled exits with 1, a command that cannot be done with 2. -/
def Code.exit : Code → Nat
  | .parse | .unsupported | .binding | .internal => 1
  | .io | .config | .usage | .generic => 2

/-- Why a command failed. -/
inductive Trouble where
  | disk (e : Disk.Error)
  | emit (e : Build.EmitError)
  | parse (file : Bytes) (failure : Parser.Failure)

def Trouble.message : Trouble → Bytes
  | .disk e => e.message
  | .emit e => e.message
  | .parse file failure => file ++ ": " ++ failure.message

def diskCode (e : Disk.Error) : Code :=
  if e.fault = .noEntry ∨ e.fault = .denied then .io else .generic

def compileCode : Build.CompileError → Code
  | .unknownTarget _ => .generic
  | .parse _ => .parse
  | .rejected r =>
    match r.cause with
    | .unsupported _ => .unsupported
    | .illFormed _ => .binding
  | .invalid _ _ => .internal
  | .rendering _ (.gap _) => .internal
  | .rendering _ _ => .generic

def Trouble.code : Trouble → Code
  | .disk e => diskCode e
  | .parse _ _ => .parse
  | .emit (.compile _ e) => compileCode e
  | .emit (.noSources _) => .io
  | .emit (.unreadable e) | .emit (.scan _ e) | .emit (.directory e) | .emit (.write e) =>
    diskCode e

/-- A source that no stage can read at all. -/
def Trouble.fault? : Trouble → Option Token.Fault
  | .parse _ (.lexing fault) => some fault
  | .emit e => e.fault?
  | _ => none

/-- What a command did: its exit code, what it printed, and the error it ended in. -/
structure Outcome where
  exit : Nat := 0
  out : Bytes := []
  err : Bytes := []
  error : Option Bytes := none
deriving DecidableEq, Repr

structure Reporter where
  isJson : Bool
  verbose : Bool

namespace Reporter

def success (r : Reporter) (data : Json) (text : Bytes) : Outcome :=
  { out := if r.isJson then
      (Json.object [("status", .string "ok"), ("data", data)]).text ++ "\n"
    else text ++ "\n" }

/-- A failure: what is printed about it, and the error that the command ends in. Details
are always part of JSON, and of text if that is verbose. -/
def failure (r : Reporter) (code : Code) (message : Bytes) (details : List String)
    (error : Bytes) : Outcome :=
  if r.isJson then
    let detailFields := if details.isEmpty then []
      else [("details", Json.array (details.map fun (d : String) => .string d))]
    { exit := code.exit
      error := some error
      out := (Json.object [("status", .string "error"), ("error", .object
        ([("code", .string code.name), ("message", .string message)] ++ detailFields))]).text ++
        "\n" }
  else
    { exit := code.exit
      error := some error
      err := "Error [" ++ code.name ++ "]: " ++ message ++ "\n" ++
        Bytes.onlyIf (r.verbose && !details.isEmpty)
          ("Details: [" ++ Bytes.join " " (details.map Bytes.ofString) ++ "]\n") }

/-- Trouble in some stage of a command. -/
def trouble (r : Reporter) (stage : String) (t : Trouble) : Except Token.Fault Outcome :=
  match t.fault? with
  | some fault => .error fault
  | none => .ok (r.failure t.code t.message [] (stage ++ ": " ++ t.message))

end Reporter
end RustLua.Command
