import RustLua.Path

/-!
Disks: what reading and writing files needs, in any monad. Operations answer
with the cause of a failure; its wording names the operation and the path.
-/

namespace RustLua

namespace Disk

inductive Fault where
  | noEntry | notDirectory | isDirectory | alreadyExists | denied
  | other (text : Bytes)
deriving DecidableEq, Repr

def Fault.text : Fault → Bytes
  | .noEntry => "no such file or directory"
  | .notDirectory => "not a directory"
  | .isDirectory => "is a directory"
  | .alreadyExists => "file exists"
  | .denied => "permission denied"
  | .other text => text

inductive Kind where
  | file | directory
deriving DecidableEq, Repr

inductive Action where
  | stat | lstat | open | read | mkdir
deriving DecidableEq, Repr

def Action.name : Action → String
  | .stat => "stat"
  | .lstat => "lstat"
  | .open => "open"
  | .read => "read"
  | .mkdir => "mkdir"

structure Error where
  action : Action
  path : Bytes
  fault : Fault
deriving DecidableEq, Repr

def Error.message (e : Error) : Bytes :=
  e.action.name ++ " " ++ e.path ++ ": " ++ e.fault.text

end Disk

structure Disk (m : Type → Type) where
  /-- What a path leads to. -/
  kind : Bytes → m (Except Disk.Fault Disk.Kind)
  read : Bytes → m (Except Disk.Fault Bytes)
  /-- Write a whole file, in place of what it held. -/
  write : Bytes → Bytes → m (Except Disk.Fault Unit)
  /-- Make one directory. -/
  makeDirectory : Bytes → m (Except Disk.Fault Unit)
  /-- The paths, from a directory on, of the files below it; a directory whose name is
  refused is not entered. -/
  filesBelow : (Bytes → Bool) → Bytes → m (Except Disk.Fault (List Bytes))

namespace Disk

variable {m : Type → Type} [Monad m]

def readFile (disk : Disk m) (path : Bytes) : m (Except Error Bytes) := do
  match ← disk.read path with
  | .ok text => return .ok text
  | .error .isDirectory => return .error ⟨.read, path, .isDirectory⟩
  | .error fault => return .error ⟨.open, path, fault⟩

/-- The beginnings of a clean path that have to be directories for it to be one, shortest
first. All but the path itself end in a slash. -/
def beginnings (path : Bytes) : List Bytes :=
  let rec go (before : Bytes) : List Bytes → List Bytes
    | [] => []
    | [last] => [before ++ last]
    | part :: parts =>
      let upTo := before ++ part ++ "/"
      upTo :: go upTo parts
  go [] (Bytes.splitOnByte Ascii.slash path)

/-- Make the directories of a list that are not there yet. -/
def makeEach (disk : Disk m) : List Bytes → m (Except Error Unit)
  | [] => return .ok ()
  | beginning :: longer => do
    match ← disk.kind beginning with
    | .ok .directory => makeEach disk longer
    | .ok .file => return .error ⟨.mkdir, beginning, .notDirectory⟩
    | .error _ =>
      match ← disk.makeDirectory beginning with
      | .ok () => makeEach disk longer
      | .error fault => return .error ⟨.mkdir, beginning, fault⟩

/-- Make a directory and all those that it is in. -/
def makeDirectories (disk : Disk m) (path : Bytes) : m (Except Error Unit) :=
  makeEach disk (beginnings path)

end Disk
end RustLua
