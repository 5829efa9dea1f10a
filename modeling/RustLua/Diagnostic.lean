import RustLua.Position

/-!
Diagnostics: positioned messages, kept in the order of their reports. Lines and
columns are integers, because a report may carry any position.
-/

namespace RustLua

inductive Severity where
  | error
  | warning
deriving DecidableEq, Repr

def Severity.name : Severity → String
  | .error => "error"
  | .warning => "warning"

structure Diagnostic where
  severity : Severity
  line : Int
  column : Int
  message : Bytes
  hint : Bytes := []
deriving DecidableEq, Repr

namespace Diagnostic

def atPos (severity : Severity) (pos : Pos) (message : Bytes) : Diagnostic :=
  ⟨severity, pos.line, pos.column, message, []⟩

/-- The short form: line, column, message. -/
def text (d : Diagnostic) : Bytes :=
  Bytes.integer d.line ++ ":" ++ Bytes.integer d.column ++ ": " ++ d.message

/-- The long form: severity and file in front, a hint on a line of its own. -/
def format (file : Bytes) (d : Diagnostic) : Bytes :=
  d.severity.name ++ "[" ++ file ++ ":" ++ Bytes.integer d.line ++ ":" ++
    Bytes.integer d.column ++ "]: " ++ d.message ++
    Bytes.onlyIf (!d.hint.isEmpty) ("\n  hint: " ++ d.hint)

def formatAll (file : Bytes) (items : List Diagnostic) : Bytes :=
  Bytes.join "\n" (items.map (format file))

end Diagnostic

/-- Diagnostics in report order. -/
structure Bag where
  items : List Diagnostic := []
deriving DecidableEq, Repr

namespace Bag

def add (bag : Bag) (d : Diagnostic) : Bag := ⟨bag.items ++ [d]⟩

/-- Give the last diagnostic a hint, in place of the one it may have. -/
def hint (bag : Bag) (text : Bytes) : Bag :=
  match bag.items.getLast? with
  | some d => ⟨bag.items.dropLast ++ [{ d with hint := text }]⟩
  | none => bag

def count (bag : Bag) : Nat := bag.items.length

/-- Keep the first `n` diagnostics. -/
def truncate (bag : Bag) (n : Nat) : Bag := ⟨bag.items.take n⟩

def errors (bag : Bag) : List Diagnostic := bag.items.filter (·.severity = .error)

def hasErrors (bag : Bag) : Bool := bag.items.any (·.severity = .error)

end Bag
end RustLua
