import RustLua.Disk.Basic

/-!
Trees of files as values: finite maps from places to texts, and the directories
among the places. A path starts at the root, or else at the working directory.
-/

namespace RustLua.Disk

/-- The names on the way from the root. -/
abbrev Place := List Bytes

structure Tree where
  files : List (Place × Bytes) := []
  /-- Directories besides those that hold something. -/
  directories : List Place := []
  /-- The working directory. -/
  home : Place := []

namespace Tree

def textAt? (t : Tree) (place : Place) : Option Bytes :=
  (t.files.find? (·.1 = place)).map (·.2)

/-- Is one place inside another one? -/
def isInside (outer inner : Place) : Bool := outer.isPrefixOf inner && outer != inner

def isDirectory (t : Tree) (place : Place) : Bool :=
  place.isEmpty || t.directories.any (fun d => d = place || isInside place d) ||
    t.files.any fun f => isInside place f.1

def kindAt (t : Tree) (place : Place) : Except Fault Kind :=
  if (t.textAt? place).isSome then .ok .file
  else if t.isDirectory place then .ok .directory
  else .error .noEntry

/-- Go on from a place; there is no way on from a file. -/
def follow (t : Tree) (place : Place) : List Bytes → Except Fault Place
  | [] => .ok place
  | part :: parts => do
    match ← t.kindAt place with
    | .file => throw .notDirectory
    | .directory =>
      if part.isEmpty || part = Path.here then t.follow place parts
      else if part = Path.up then t.follow place.dropLast parts
      else t.follow (place ++ [part]) parts

/-- The steps from the root to where a path leads. -/
def steps (t : Tree) (path : Bytes) : List Bytes :=
  (if path.headD 0 = Ascii.slash then [] else t.home) ++ Bytes.splitOnByte Ascii.slash path

/-- The place that a path leads to. -/
def resolve (t : Tree) (path : Bytes) : Except Fault Place :=
  if path.isEmpty then .error .noEntry else t.follow [] (t.steps path)

def kind (t : Tree) (path : Bytes) : Except Fault Kind := do t.kindAt (← t.resolve path)

def read (t : Tree) (path : Bytes) : Except Fault Bytes := do
  let place ← t.resolve path
  match t.textAt? place with
  | some text => return text
  | none => throw (if t.isDirectory place then .isDirectory else .noEntry)

/-- Put a text at a place. -/
def put (t : Tree) (place : Place) (text : Bytes) : Tree :=
  { t with files := t.files.filter (·.1 ≠ place) ++ [(place, text)] }

def write (t : Tree) (path text : Bytes) : Except Fault Tree := do
  let place ← t.resolve path
  if t.isDirectory place then throw .isDirectory else return t.put place text

def makeDirectory (t : Tree) (path : Bytes) : Except Fault Tree := do
  let trimmed := (path.reverse.dropWhile (· == Ascii.slash)).reverse
  let place ← t.resolve trimmed
  match t.kindAt place with
  | .ok _ => throw .alreadyExists
  | .error _ => return { t with directories := t.directories ++ [place] }

/-- The files below a place, all directories in between having accepted names. -/
def filesBelow (t : Tree) (accepts : Bytes → Bool) (path : Bytes) : Except Fault (List Bytes) := do
  let place ← t.resolve path
  match ← t.kindAt place with
  | .file => throw .notDirectory
  | .directory =>
    let inside := t.files.filter fun f =>
      isInside place f.1 && ((f.1.drop place.length).dropLast.all accepts)
    return inside.map fun f => Path.join path (Bytes.join "/" (f.1.drop place.length))

/-- Update a tree, which stays as it is on a failure. -/
def update (change : Tree → Except Fault Tree) : StateM Tree (Except Fault Unit) :=
  modifyGet fun t =>
    match change t with
    | .ok t' => (.ok (), t')
    | .error fault => (.error fault, t)

/-- The disk over a tree. -/
def disk : Disk (StateM Tree) where
  kind path := return (← get).kind path
  read path := return (← get).read path
  write path text := update (·.write path text)
  makeDirectory path := update (·.makeDirectory path)
  filesBelow accepts path := return (← get).filesBelow accepts path

end Tree
end RustLua.Disk
