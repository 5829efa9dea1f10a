import RustLua.Command.Run

/-! The program: the commands on the disk of the machine. -/

open RustLua

namespace RustLua.Program

/-- A byte string as text; paths and messages are valid UTF-8 here. -/
def textOf (b : Bytes) : String := (String.fromUTF8? ⟨b.toArray⟩).getD ""

def bytesOf (a : ByteArray) : Bytes := a.data.toList

def faultOf : IO.Error → Disk.Fault
  | .noFileOrDirectory .. => .noEntry
  | .permissionDenied .. => .denied
  | .alreadyExists .. => .alreadyExists
  | .inappropriateType _ code _ => if code = 20 then .notDirectory else .isDirectory
  | e => .other (Bytes.ofString e.toString)

/-- An action whose failure is an answer. -/
def attempt {α : Type} (action : IO α) : IO (Except Disk.Fault α) := do
  match ← action.toBaseIO with
  | .ok a => return .ok a
  | .error e => return .error (faultOf e)

def kindOf (path : Bytes) : IO Disk.Kind := do
  let info ← ((← IO.currentDir) / textOf path).metadata
  return if info.type == .dir then .directory else .file

/-- The files below a directory, each with its names on the way. -/
partial def filesFrom (accepts : Bytes → Bool) (path : Bytes) : IO (List Bytes) := do
  let entries ← ((← IO.currentDir) / textOf path).readDir
  let mut found := []
  for entry in entries do
    let name := Bytes.ofString entry.fileName
    let inner := Path.join path name
    match ← kindOf inner with
    | .file => found := found ++ [inner]
    | .directory => if accepts name then found := found ++ (← filesFrom accepts inner)
  return found

def machine : Disk IO where
  kind path := attempt (kindOf path)
  read path := attempt do return bytesOf (← IO.FS.readBinFile (textOf path))
  write path text := attempt (IO.FS.writeBinFile (textOf path) ⟨text.toArray⟩)
  makeDirectory path := attempt (IO.FS.createDir (textOf path))
  filesBelow accepts path := attempt (filesFrom accepts path)

/-- The part of the environment that settings can come from. -/
def environment : IO Config.Environment := do
  let values ← Config.Variable.all.mapM fun v => do
    return (← IO.getEnv v.name).map fun value => (Bytes.ofString v.name, Bytes.ofString value)
  return values.filterMap id

end RustLua.Program

open RustLua.Program in
def main (args : List String) : IO UInt32 := do
  match ← Command.run machine (← environment) (args.map Bytes.ofString) with
  | .error .cutByteLiteral => return 2
  | .ok outcome =>
    IO.print (textOf outcome.out)
    IO.eprint (textOf outcome.err)
    return outcome.exit.toUInt32
