import RustLua.Bytes.Basic

/-! The ASCII bytes that the lexer and the text formats name, and their classes. -/

namespace RustLua.Ascii

def nul : UInt8 := 0
def tab : UInt8 := 9
def newline : UInt8 := 10
def carriageReturn : UInt8 := 13
def blank : UInt8 := 32
def quote : UInt8 := 34
def hash : UInt8 := 35
def percent : UInt8 := 37
def apostrophe : UInt8 := 39
def star : UInt8 := 42
def plus : UInt8 := 43
def comma : UInt8 := 44
def minus : UInt8 := 45
def dot : UInt8 := 46
def slash : UInt8 := 47
def colon : UInt8 := 58
def backslash : UInt8 := 92
def underscore : UInt8 := 95
def braceOpen : UInt8 := 123
def braceClose : UInt8 := 125

/-- A letter or the underscore: what a name starts with. -/
def isLetter (b : UInt8) : Bool :=
  (97 ≤ b && b ≤ 122) || (65 ≤ b && b ≤ 90) || b == underscore

def isDigit (b : UInt8) : Bool := 48 ≤ b && b ≤ 57

def isHexDigit (b : UInt8) : Bool :=
  isDigit b || (97 ≤ b && b ≤ 102) || (65 ≤ b && b ≤ 70)

/-- What a name continues with. -/
def isWord (b : UInt8) : Bool := isLetter b || isDigit b

/-- The layout bytes of source text. -/
def isLayout (b : UInt8) : Bool :=
  b == blank || b == tab || b == newline || b == carriageReturn

def isUpper (b : UInt8) : Bool := 65 ≤ b && b ≤ 90
def isLower (b : UInt8) : Bool := 97 ≤ b && b ≤ 122

/-- An upper-case letter becomes its lower-case one. -/
def toLower (b : UInt8) : UInt8 := if isUpper b then b + 32 else b

end RustLua.Ascii
