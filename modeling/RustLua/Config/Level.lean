import RustLua.Unicode.Lower

/-! Levels of logging: numbers of eight bits, some of which have names. -/

namespace RustLua.Config

structure Level where
  number : Int
deriving DecidableEq, Repr

namespace Level

def names : List (String × Int) :=
  [("trace", -1), ("debug", 0), ("info", 1), ("warn", 2), ("error", 3), ("fatal", 4),
   ("panic", 5), ("disabled", 7), ("", 6)]

def info : Level := ⟨1⟩

/-- The name of a level, or its number. -/
def name (l : Level) : Bytes :=
  match names.find? (·.2 = l.number) with
  | some (name, _) => name
  | none => Bytes.integer l.number

inductive ReadError where
  | unknown (text : Bytes)
  | outOfBounds (number : Int)
deriving DecidableEq, Repr

def ReadError.message : ReadError → Bytes
  | .unknown text => "Unknown Level String: '" ++ text ++ "', defaulting to NoLevel"
  | .outOfBounds number =>
    "Out-Of-Bounds Level: '" ++ Bytes.integer number ++ "', defaulting to NoLevel"

/-- An integer of 64 bits in decimal, with an optional sign. -/
def readInteger? (text : Bytes) : Option Int :=
  match text with
  | [] => none
  | first :: rest =>
    if first = Ascii.minus then
      ((Bytes.digitsValue? 10 rest).filter (· ≤ Word.signedLimit)).map fun n => -(n : Int)
    else
      let digits := if first = Ascii.plus then rest else text
      ((Bytes.digitsValue? 10 digits).filter (· < Word.signedLimit)).map Int.ofNat

/-- A long s counts as an s where names are compared. -/
def foldLongS (text : Bytes) : Bytes :=
  (Utf8.chunks text).flatMap fun
    | .char c => if c.toNat = 0x17F then "s" else Utf8.encode c
    | .stray b => [b]

/-- The level that a text names, in any case, or gives the number of. -/
def read (text : Bytes) : Except ReadError Level :=
  let lower := Unicode.lowerText text
  match names.find? fun (name, _) => Bytes.ofString name = foldLongS lower with
  | some (_, number) => .ok ⟨number⟩
  | none =>
    match readInteger? lower with
    | none => .error (.unknown lower)
    | some n => if 127 < n ∨ n < -128 then .error (.outOfBounds n) else .ok ⟨n⟩

end Level
end RustLua.Config
