import RustLua.Bytes.Ascii

/-!
Paths: texts with slashes. A clean path has no empty part and no `.`, and a `..`
only at its beginning; the clean form of the empty path is `.`.
-/

namespace RustLua.Path

/-- The parts of a path, and whether it starts at the root. -/
structure Parts where
  rooted : Bool
  parts : List Bytes
deriving DecidableEq, Repr

def here : Bytes := "."
def up : Bytes := ".."

/-- One step of cleaning; `before` holds the clean parts so far, the last one first. -/
def cleanStep (rooted : Bool) (before : List Bytes) (part : Bytes) : List Bytes :=
  if part.isEmpty || part = here then before
  else if part = up then
    match before with
    | [] => if rooted then [] else [up]
    | last :: rest => if last = up then up :: last :: rest else rest
  else part :: before

/-- The parts of the clean form. -/
def cleanParts (path : Bytes) : Parts :=
  let rooted := path.headD 0 = Ascii.slash
  ⟨rooted, ((Bytes.splitOnByte Ascii.slash path).foldl (cleanStep rooted) []).reverse⟩

def Parts.text (p : Parts) : Bytes :=
  if p.rooted then "/" ++ Bytes.join "/" p.parts
  else if p.parts.isEmpty then here
  else Bytes.join "/" p.parts

def clean (path : Bytes) : Bytes := (cleanParts path).text

/-- Two paths behind each other, cleaned; empty ones do not count. -/
def join (a b : Bytes) : Bytes :=
  if a.isEmpty then if b.isEmpty then [] else clean b
  else clean (a ++ "/" ++ b)

/-- What stands behind the last slash. -/
def lastPart (path : Bytes) : Bytes := (path.reverse.takeWhile (· != Ascii.slash)).reverse

/-- The last part, slashes at the end left out. -/
def base (path : Bytes) : Bytes :=
  if path.isEmpty then here
  else
    let trimmed := (path.reverse.dropWhile (· == Ascii.slash)).reverse
    if trimmed.isEmpty then "/" else lastPart trimmed

/-- The clean path of the directory: all up to the last slash. -/
def directory (path : Bytes) : Bytes :=
  clean (path.take (path.length - (lastPart path).length))

/-- The extension: the last dot of the last part and what stands behind it. -/
def extension (path : Bytes) : Bytes :=
  let part := lastPart path
  if part.elem Ascii.dot then
    Ascii.dot :: (part.reverse.takeWhile (· != Ascii.dot)).reverse
  else []

def withoutExtension (path : Bytes) : Bytes := Bytes.dropEnding (extension path) path

/-- What is left of two lists behind their common beginning. -/
def dropCommon : List Bytes → List Bytes → List Bytes × List Bytes
  | a :: as, b :: bs => if a = b then dropCommon as bs else (a :: as, b :: bs)
  | as, bs => (as, bs)

/-- The parts to go from one place to another. There are none between a rooted place and
one that is not, and none out of a place above an unknown one. -/
def relativeParts? (origin target : Parts) : Option (List Bytes) :=
  if origin.rooted ≠ target.rooted then none
  else
    match dropCommon origin.parts target.parts with
    | (first :: more, b :: bs) =>
      if first = up then none else some ((first :: more).map (fun _ => up) ++ b :: bs)
    | (as, bs) => some (as.map (fun _ => up) ++ bs)

/-- The path from a directory to another place. -/
def relative? (origin target : Bytes) : Option Bytes :=
  let a := cleanParts origin
  let b := cleanParts target
  if a = b then some here
  else
    let b := if b.rooted || !b.parts.isEmpty then b else ⟨false, [here]⟩
    (relativeParts? a b).map (Bytes.join "/")

end RustLua.Path
