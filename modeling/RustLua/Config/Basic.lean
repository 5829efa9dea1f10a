import RustLua.Bytes.Quoted
import RustLua.Config.Level
import RustLua.Lua.Piece

/-! Settings, and the checks that they have to pass. -/

namespace RustLua

structure Config where
  /-- The Lua table that extern names are read from. -/
  globalTable : Bytes := "_G"
  /-- The label of outermost loops. -/
  continueLabel : Bytes := "__continue__"
  /-- How many items are lowered at once; no output depends on it. -/
  workers : Int := 1
  /-- The extension of Lua output. -/
  outputExt : Bytes := ".lua"
  logLevel : Bytes := "info"
deriving DecidableEq, Repr

namespace Config

/-- A setting that output could not be produced with. -/
inductive Invalid where
  | notAName (key : String) (value : Bytes)
  | workers (n : Int)
  | extension (value : Bytes)
  | level (error : Level.ReadError)
deriving DecidableEq, Repr

def Invalid.message : Invalid → Bytes
  | .notAName key value => key ++ " " ++ Bytes.quoted value ++ " is not a Lua name"
  | .workers n => "workers must be at least 1, got " ++ Bytes.integer n
  | .extension value => "output_ext " ++ Bytes.quoted value ++ " must start with a dot"
  | .level error => "log_level: " ++ error.message

/-- The level of logging; an empty text stands for the usual one. -/
def level (c : Config) : Except Level.ReadError Level :=
  if c.logLevel.isEmpty then .ok Level.info else Level.read c.logLevel

def checkName (key : String) (value : Bytes) : Except Invalid Unit :=
  if Lua.isName value then .ok () else .error (.notAName key value)

/-- The first setting that is invalid, or the level of logging. -/
def validate (c : Config) : Except Invalid Level := do
  checkName "global_table" c.globalTable
  checkName "continue_label" c.continueLabel
  if c.workers < 1 then throw (.workers c.workers)
  if c.outputExt.headD 0 ≠ Ascii.dot ∨ c.outputExt.length < 2 then
    throw (.extension c.outputExt)
  match c.level with
  | .ok level => return level
  | .error e => throw (.level e)

end Config
end RustLua
