import RustLua.Config.Basic
import RustLua.Yaml.Reader

/-!
Settings from a document. Every wrong entry gives a complaint; entries that are
left empty keep what was set.
-/

namespace RustLua.Config

open Yaml (Value Pair Meaning)

/-- The type of a setting. -/
inductive FieldType where
  | text | integer | whole
deriving DecidableEq, Repr

def FieldType.name : FieldType → String
  | .text => "string"
  | .integer => "int"
  | .whole => "config.Config"

/-- What is wrong with a document that can be read. -/
inductive Complaint where
  | unknownField (line : Nat) (name : Bytes)
  | repeatedKey (line : Nat) (key : Bytes) (first : Nat)
  | wrongScalar (line : Nat) (tag : String) (text : Bytes) (wanted : FieldType)
  | wrongCollection (line : Nat) (tag : String) (wanted : FieldType)
deriving DecidableEq, Repr

/-- A scalar as complaints show it, a long one cut. -/
def shownScalar (text : Bytes) : Bytes :=
  if 10 < text.length then "`" ++ text.take 7 ++ "...`" else "`" ++ text ++ "`"

def Complaint.message : Complaint → Bytes
  | .unknownField line name =>
    "line " ++ Bytes.decimal line ++ ": field " ++ name ++ " not found in type config.Config"
  | .repeatedKey line key first =>
    "line " ++ Bytes.decimal line ++ ": mapping key " ++ Bytes.quoted key ++
      " already defined at line " ++ Bytes.decimal first
  | .wrongScalar line tag text wanted =>
    "line " ++ Bytes.decimal line ++ ": cannot unmarshal " ++ tag ++ " " ++ shownScalar text ++
      " into " ++ wanted.name
  | .wrongCollection line tag wanted =>
    "line " ++ Bytes.decimal line ++ ": cannot unmarshal " ++ tag ++ " into " ++ wanted.name

/-- The number in front of the point, without its sign. -/
def wholePart (d : Double) : Nat :=
  if d.exponent < 0 then d.significand / Nat.pow 2 (-d.exponent).toNat
  else d.significand * Nat.pow 2 d.exponent.toNat

/-- A number as an integer of 64 bits. Fractions are cut; numbers below the range, and the
first one past it, become the least integer. -/
def integerOf? : Meaning → Option Int
  | .integer n => if n < Word.signedLimit then some n else none
  | .float d =>
    if d.isNaN then none
    else if d.isNegative then
      if d.isInfinite then some Word.least else some (max Word.least (-(wholePart d : Int)))
    else if d.isInfinite || Word.signedLimit < wholePart d then none
    else if wholePart d = Word.signedLimit then some Word.least
    else some (wholePart d)
  | _ => none

/-- What tells keys apart: their kind, and the text of scalars. -/
def keyIdentity : Value → Option String × Bytes
  | .scalar text _ _ => (none, text)
  | .seq _ _ => (some "!!seq", [])
  | .map _ _ => (some "!!map", [])

/-- Complaints about keys that come again, in pairs. -/
def repeatedKeys : List Pair → List Complaint
  | [] => []
  | .mk key _ :: pairs =>
    pairs.filterMap (fun (.mk other _) =>
      if keyIdentity other = keyIdentity key then
        some (.repeatedKey other.line (keyIdentity key).2 key.line)
      else none) ++ repeatedKeys pairs

/-- What a value that is no scalar has to be complained about for. -/
def collectionComplaints (wanted : FieldType) : Value → List Complaint
  | .scalar text quoted line =>
    [.wrongScalar line (Yaml.scalarMeaning text quoted).tag text wanted]
  | .seq _ line => [.wrongCollection line "!!seq" wanted]
  | .map pairs line =>
    match repeatedKeys pairs with
    | [] => [.wrongCollection line "!!map" wanted]
    | repeated => repeated

/-- Is a value left out or null? -/
def isNull : Value → Bool
  | .scalar text quoted _ => Yaml.scalarMeaning text quoted = .null
  | _ => false

/-- A setting of text. -/
def setText (set : Bytes → Config → Config) (value : Value) (config : Config) :
    Config × List Complaint :=
  match value with
  | .scalar text _ _ => if isNull value then (config, []) else (set text config, [])
  | other => (config, collectionComplaints .text other)

def setWorkers (value : Value) (config : Config) : Config × List Complaint :=
  match value with
  | .scalar text quoted _ =>
    if isNull value then (config, [])
    else match integerOf? (Yaml.scalarMeaning text quoted) with
      | some n => ({ config with workers := n }, [])
      | none => (config, collectionComplaints .integer value)
  | other => (config, collectionComplaints .integer other)

/-- One entry of the document. -/
def setEntry (config : Config) : Pair → Config × List Complaint
  | .mk key value =>
    match key with
    | .scalar name _ line =>
      if isNull key then (config, [])
      else if name = "global_table" then
        setText (fun t c => { c with globalTable := t }) value config
      else if name = "continue_label" then
        setText (fun t c => { c with continueLabel := t }) value config
      else if name = "workers" then setWorkers value config
      else if name = "output_ext" then
        setText (fun t c => { c with outputExt := t }) value config
      else if name = "log_level" then
        setText (fun t c => { c with logLevel := t }) value config
      else (config, [.unknownField line name])
    | other => (config, collectionComplaints .text other)

def setEntries (config : Config) : List Pair → Config × List Complaint
  | [] => (config, [])
  | pair :: pairs =>
    let (config, first) := setEntry config pair
    let (config, more) := setEntries config pairs
    (config, first ++ more)

/-- The settings of a document, on top of others. -/
def ofDocument (config : Config) (document : Value) : Config × List Complaint :=
  match document with
  | .map pairs _ =>
    match repeatedKeys pairs with
    | [] => setEntries config pairs
    | repeated => (config, repeated)
  | other => if isNull other then (config, []) else (config, collectionComplaints .whole other)

/-- Why a text has no settings. -/
inductive DocumentError where
  | unreadable (e : Yaml.Reader.ReadError)
  | complaints (list : List Complaint)

def DocumentError.message : DocumentError → Bytes
  | .unreadable e => e.message
  | .complaints list =>
    "yaml: unmarshal errors:\n  " ++ Bytes.join "\n  " (list.map Complaint.message)

/-- The settings of a text, on top of others. -/
def readDocument (config : Config) (text : Bytes) : Except DocumentError Config :=
  match Yaml.Reader.document? text with
  | .error e => .error (.unreadable e)
  | .ok none => .ok config
  | .ok (some document) =>
    match ofDocument config document with
    | (config, []) => .ok config
    | (_, list) => .error (.complaints list)

end RustLua.Config
