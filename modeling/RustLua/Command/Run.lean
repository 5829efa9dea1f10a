import RustLua.Command.Flags
import RustLua.Command.Report
import RustLua.Lint.Basic

/-!
The commands: build, check and lint a source file, or all sources of a
directory. Settings are loaded before any of them runs.
-/

namespace RustLua.Command

variable {m : Type → Type} [Monad m]

/-- The sources that a path stands for: itself, or those below it. -/
def sourcesOf (disk : Disk m) (path : Bytes) : m (Except Trouble (List Bytes)) := do
  match ← disk.kind path with
  | .error fault => return .error (.disk ⟨.stat, path, fault⟩)
  | .ok .file => return .ok [path]
  | .ok .directory =>
    match ← Build.discover disk path with
    | .error e => return .error (.emit e)
    | .ok sources => return .ok sources.files

/-- Run a stage on each source; the stage in which the first trouble came up. -/
def eachSource {α : Type} (disk : Disk m) (stage : String)
    (run : Bytes → Bytes → Except Trouble α) :
    List Bytes → m (Except (String × Trouble) (List α))
  | [] => return .ok []
  | file :: files => do
    match ← disk.readFile file with
    | .error e => return .error ("reading input", .disk e)
    | .ok source =>
      match run file source with
      | .error t => return .error (stage, t)
      | .ok result => return (result :: ·) <$> (← eachSource disk stage run files)

/-! ## Build -/

def buildReport (r : Reporter) (target : Build.Target) (outputs : List Bytes) : Outcome :=
  r.success
    (.object [("outputs", .array (outputs.map .string)), ("target", .string target.name)])
    (Bytes.join "\n" (outputs.map ("✓ Wrote " ++ ·)))

/-- Compile what a path stands for; the paths that were written to. -/
def emit (disk : Disk m) (config : Config) (target : Build.Target) (path output : Bytes) :
    Disk.Kind → m (Except Build.EmitError (List Bytes))
  | .directory => Build.emitDirectory disk config target path output
  | .file => do
    return (fun written => [written]) <$> (← Build.emitFile disk config target path output)

def build (disk : Disk m) (r : Reporter) (config : Config) (o : Options) (path : Bytes) :
    m (Except Token.Fault Outcome) := do
  match Build.Target.ofName? o.emit with
  | none =>
    return .ok (r.failure .usage ("unknown emit target " ++ Bytes.quoted o.emit)
      (Build.Target.all.map Build.Target.name) ("unknown emit target " ++ o.emit))
  | some target =>
    match ← disk.kind path with
    | .error fault => return r.trouble "reading input" (.disk ⟨.stat, path, fault⟩)
    | .ok kind =>
      match ← emit disk config target path o.output kind with
      | .error e => return r.trouble "build failed" (.emit e)
      | .ok outputs => return .ok (buildReport r target outputs)

/-! ## Check -/

/-- A source and the number of its nodes. -/
def checkSource (file source : Bytes) : Except Trouble (Bytes × Nat) :=
  match Build.check source with
  | .error e => .error (.emit (.compile file e))
  | .ok checked => .ok (file, checked.program.items.length)

def checkReport (r : Reporter) (files : List (Bytes × Nat)) : Outcome :=
  r.success
    (.object [("files", .array (files.map fun (file, n) =>
      .object [("path", .string file), ("items", .number n)]))])
    (Bytes.join "\n" (files.map fun (file, n) =>
      "✓ " ++ file ++ ": " ++ Bytes.decimal n ++ " item(s)"))

/-! ## Lint -/

def lintSource (file source : Bytes) : Except Trouble (Bytes × List Diagnostic) :=
  match Parser.parseFile source with
  | .error failure => .error (.parse file failure)
  | .ok tree => .ok (file, Lint.diagnostics tree)

def lintReport (r : Reporter) (files : List (Bytes × List Diagnostic)) : Outcome :=
  let total := (files.flatMap (·.2)).length
  let summary := Bytes.decimal total ++ " warning(s) in " ++ Bytes.decimal files.length ++
    " file(s)"
  r.success
    (.object [("files", .array (files.map fun (file, list) =>
      .object [("path", .string file), ("warnings", .array (list.map fun d =>
        .object [("line", .number d.line), ("column", .number d.column),
          ("message", .string d.message)]))]))])
    (Bytes.join "\n" ((files.filter (!·.2.isEmpty)).map (fun (file, list) =>
      Diagnostic.formatAll file list) ++ [summary]))

/-- A command that looks at each source for itself. -/
def survey {α : Type} (disk : Disk m) (r : Reporter) (stage : String)
    (run : Bytes → Bytes → Except Trouble α) (report : List α → Outcome) (path : Bytes) :
    m (Except Token.Fault Outcome) := do
  match ← sourcesOf disk path with
  | .error t => return r.trouble "reading input" t
  | .ok files =>
    match ← eachSource disk stage run files with
    | .error (stage, t) => return r.trouble stage t
    | .ok results => return .ok (report results)

/-! ## All commands -/

/-- The names of the output formats. -/
def formats : List String := ["text", "json"]

def runVerb (disk : Disk m) (r : Reporter) (config : Config) (o : Options) (path : Bytes) :
    Verb → m (Except Token.Fault Outcome)
  | .build => build disk r config o path
  | .check => survey disk r "check failed" checkSource (checkReport r) path
  | .lint => survey disk r "lint failed" lintSource (lintReport r) path

/-- Run a command line. -/
def run (disk : Disk m) (env : Config.Environment) (args : List Bytes) :
    m (Except Token.Fault Outcome) := do
  match request args with
  | .error e => return .ok { exit := 2, error := some e.message }
  | .ok .help => return .ok {}
  | .ok (.run verb o path) =>
    let r : Reporter := { isJson := o.format = "json", verbose := o.verbose }
    if !formats.any fun f => Bytes.ofString f = o.format then
      let message := "invalid format " ++ Bytes.quoted o.format ++ ": must be one of [" ++
        Bytes.join " " (formats.map Bytes.ofString) ++ "]"
      return .ok (r.failure .usage message [] message)
    else
      match ← Config.load disk env o.config with
      | .error e =>
        return .ok (r.failure .config e.message [] ("loading config: " ++ e.message))
      | .ok (config, _) => runVerb disk r config o path verb

end RustLua.Command
