import RustLua.Build.Compile
import RustLua.Disk.Basic

/-!
Compiling files on a disk. All sources of a directory are compiled before any
output is written, so a source that fails leaves the disk as it was.
-/

namespace RustLua.Build

inductive EmitError where
  | unreadable (e : Disk.Error)
  | compile (file : Bytes) (e : CompileError)
  | scan (root : Bytes) (e : Disk.Error)
  | noSources (root : Bytes)
  | directory (e : Disk.Error)
  | write (e : Disk.Error)

def EmitError.message : EmitError → Bytes
  | .unreadable e => "failed to read input: " ++ e.message
  | .compile file e => file ++ ": " ++ e.message
  | .scan root e => "failed to scan " ++ root ++ ": " ++ e.message
  | .noSources root => root ++ ": no source files found"
  | .directory e => "failed to create output dir: " ++ e.message
  | .write e => "failed to write output file: " ++ e.message

/-- A source that cannot even be cut into tokens: the program ends there. -/
def EmitError.fault? : EmitError → Option Token.Fault
  | .compile _ (.parse (.lexing fault)) => some fault
  | _ => none

/-! ## Paths of outputs -/

/-- The extension of sources. -/
def sourceExtension : Bytes := ".rs"

/-- Next to the input, with another extension. -/
def besideInput (input ext : Bytes) : Bytes := Path.withoutExtension input ++ ext

/-- Below the output directory as the file is below the root, with another extension. A
file that cannot be reached from the root goes right into the output directory. -/
def outputPath (root outDir ext file : Bytes) : Bytes :=
  let place := (Path.relative? root file).getD (Path.base file)
  Path.join outDir (Path.withoutExtension place ++ ext)

/-! ## Sources and outputs on a disk -/

/-- The sources below a directory, in the order of their paths. -/
structure Sources where
  root : Bytes
  files : List Bytes

/-- Hidden directories and those for build results are not searched. -/
def searches (directory : Bytes) : Bool :=
  directory.headD 0 ≠ Ascii.dot && directory ≠ "target"

variable {m : Type → Type} [Monad m]

/-- The files that a search starts with: a file alone, or those below a directory. -/
def searched (disk : Disk m) (root : Bytes) : m (Except Disk.Error (List Bytes)) := do
  match ← disk.kind root with
  | .error fault => return .error ⟨.lstat, root, fault⟩
  | .ok .file => return .ok [root]
  | .ok .directory =>
    return (← disk.filesBelow searches root).mapError fun fault => ⟨.open, root, fault⟩

def discover (disk : Disk m) (path : Bytes) : m (Except EmitError Sources) := do
  let root := Path.clean path
  match ← searched disk root with
  | .error e => return .error (.scan root e)
  | .ok files =>
    let sources := files.filter fun f => Path.extension f = sourceExtension
    if sources.isEmpty then return .error (.noSources root)
    else return .ok ⟨root, sources.mergeSort⟩

/-- The text that a source file compiles to. -/
def compileFile (disk : Disk m) (config : Config) (target : Target) (file : Bytes) :
    m (Except EmitError Bytes) := do
  match ← disk.readFile file with
  | .error e => return .error (.unreadable e)
  | .ok source => return (compile config target source).mapError (.compile file)

/-- An error that leaves no other answer. -/
def fatal? : Except EmitError Bytes → Option EmitError
  | .ok _ => none
  | .error e => if e.fault?.isSome then some e else none

/-- All texts, or the first error; one that ends the program comes before all others. -/
def settle (outcomes : List (Except EmitError Bytes)) : Except EmitError (List Bytes) :=
  match outcomes.findSome? fatal? with
  | some e => .error e
  | none => outcomes.mapM id

/-- The texts that source files compile to. -/
def compileFiles (disk : Disk m) (config : Config) (target : Target) (files : List Bytes) :
    m (Except EmitError (List Bytes)) := do
  return settle (← files.mapM (compileFile disk config target))

/-- Write an output file, in directories that are made for it. -/
def writeOutput (disk : Disk m) (path text : Bytes) : m (Except EmitError Unit) := do
  let directory := Path.directory path
  let made ← if directory = Path.here then pure (.ok ()) else disk.makeDirectories directory
  match made with
  | .error e => return .error (.directory e)
  | .ok () =>
    return (← disk.write path text).mapError fun fault => .write ⟨.open, path, fault⟩

/-- Write outputs, up to the first that fails. -/
def writeOutputs (disk : Disk m) : List (Bytes × Bytes) → m (Except EmitError Unit)
  | [] => return .ok ()
  | (path, text) :: outputs => do
    match ← writeOutput disk path text with
    | .error e => return .error e
    | .ok () => writeOutputs disk outputs

/-- Compile a file; an empty output path stands for one next to the input. The path that
was written to. -/
def emitFile (disk : Disk m) (config : Config) (target : Target) (input output : Bytes) :
    m (Except EmitError Bytes) := do
  match ← compileFile disk config target input with
  | .error e => return .error e
  | .ok text =>
    let path := if output.isEmpty then besideInput input (target.extension config) else output
    return (fun () => path) <$> (← writeOutput disk path text)

/-- The outputs of sources that compile to some texts; an empty output directory stands for
that of the sources. -/
def Sources.outputs (sources : Sources) (config : Config) (target : Target) (output : Bytes)
    (texts : List Bytes) : List (Bytes × Bytes) :=
  let outDir := if output.isEmpty then sources.root else output
  (sources.files.map (outputPath sources.root outDir (target.extension config))).zip texts

/-- Write what sources compile to, if all of them do. The paths that were written to. -/
def Sources.write (sources : Sources) (disk : Disk m) (config : Config) (target : Target)
    (output : Bytes) : Except EmitError (List Bytes) → m (Except EmitError (List Bytes))
  | .error e => return .error e
  | .ok texts => do
    let outputs := sources.outputs config target output texts
    return (fun () => outputs.map (·.1)) <$> (← writeOutputs disk outputs)

/-- Compile the sources of a directory. The paths that were written to. -/
def emitDirectory (disk : Disk m) (config : Config) (target : Target) (input output : Bytes) :
    m (Except EmitError (List Bytes)) := do
  match ← discover disk input with
  | .error e => return .error e
  | .ok sources =>
    sources.write disk config target output (← compileFiles disk config target sources.files)

end RustLua.Build
