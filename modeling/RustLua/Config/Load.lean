import RustLua.Config.Document
import RustLua.Config.EnvFile
import RustLua.Disk.Basic

/-!
Loading settings: defaults, then a document, then the environment. A file of
environment variables adds to the environment first.
-/

namespace RustLua.Config

abbrev Environment := EnvFile.Variables

inductive LoadError where
  | envFileUnreadable (e : Disk.Error)
  | envFile (e : EnvFile.ReadError)
  | unreadable (e : Disk.Error)
  | document (path : Bytes) (e : DocumentError)
  | workersText (text : Bytes)
  | invalid (e : Invalid)

/-- The file of environment variables. -/
def envFileName : Bytes := ".env"

/-- The variables that settings can come from. -/
inductive Variable where
  | globalTable | continueLabel | workers | logLevel
deriving DecidableEq, Repr

def Variable.all : List Variable := [.globalTable, .continueLabel, .workers, .logLevel]

def Variable.name : Variable → String
  | .globalTable => "SMYTH_GLOBAL_TABLE"
  | .continueLabel => "SMYTH_CONTINUE_LABEL"
  | .workers => "SMYTH_WORKERS"
  | .logLevel => "SMYTH_LOG_LEVEL"

def valueOf? (env : Environment) (v : Variable) : Option Bytes :=
  env.lookup (Bytes.ofString v.name)

/-- The document that is read if none is asked for. -/
def defaultFileName : Bytes := "smyth.yaml"

def LoadError.message : LoadError → Bytes
  | .envFileUnreadable e => "loading " ++ envFileName ++ ": " ++ e.message
  | .envFile e => "loading " ++ envFileName ++ ": " ++ e.message
  | .unreadable e => "reading config: " ++ e.message
  | .document path e => "config " ++ path ++ ": " ++ e.message
  | .workersText text => Variable.workers.name ++ " must be an integer, got " ++ Bytes.quoted text
  | .invalid e => e.message

/-- Settings that the environment has take the place of others. -/
def applyEnvironment (env : Environment) (config : Config) : Except LoadError Config := do
  let text (v : Variable) (other : Bytes) : Bytes := (valueOf? env v).getD other
  let config := { config with
    globalTable := text .globalTable config.globalTable
    continueLabel := text .continueLabel config.continueLabel
    logLevel := text .logLevel config.logLevel }
  match valueOf? env .workers with
  | none => return config
  | some value =>
    match Level.readInteger? (Unicode.trim value) with
    | some n => return { config with workers := n }
    | none => throw (.workersText value)

variable {m : Type → Type} [Monad m]

/-- The environment and the variables of the file for it, if there is one. -/
def loadEnvironment (disk : Disk m) (env : Environment) : m (Except LoadError Environment) := do
  match ← disk.kind envFileName with
  | .error .noEntry => return .ok env
  | _ =>
    match ← disk.readFile envFileName with
    | .error e => return .error (.envFileUnreadable e)
    | .ok text =>
      match EnvFile.read text with
      | .error e => return .error (.envFile e)
      | .ok vars => return .ok (EnvFile.extend env vars)

/-- The settings of the document at a path; an empty path stands for the default document,
which need not be there. -/
def loadDocument (disk : Disk m) (path : Bytes) : m (Except LoadError Config) := do
  let chosen := if path.isEmpty then defaultFileName else path
  match ← disk.readFile chosen with
  | .ok text =>
    match readDocument {} text with
    | .ok config => return .ok config
    | .error e => return .error (.document chosen e)
  | .error e =>
    if e.fault = .noEntry && path.isEmpty then return .ok {}
    else return .error (.unreadable e)

/-- The settings, and the level of logging that they ask for. -/
def load (disk : Disk m) (env : Environment) (path : Bytes) :
    m (Except LoadError (Config × Level)) := do
  match ← loadEnvironment disk env with
  | .error e => return .error e
  | .ok env =>
    match ← loadDocument disk path with
    | .error e => return .error e
    | .ok config =>
      return do
        let config ← applyEnvironment env config
        let level ← config.validate.mapError .invalid
        return (config, level)

end RustLua.Config
