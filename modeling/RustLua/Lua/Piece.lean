import RustLua.Bytes.Ascii
import RustLua.Ir.Operator

/-!
Lexical pieces of Lua text. Rendering produces pieces; their texts, one after
the other, are the output. Names and labels are one piece each, whatever bytes
they hold; blanks are pieces without meaning.
-/

namespace RustLua.Lua

/-! ## Names -/

def reservedWords : List String :=
  ["and", "break", "do", "else", "elseif", "end", "false", "for", "function", "goto", "if", "in",
   "local", "nil", "not", "or", "repeat", "return", "then", "true", "until", "while"]

def isReserved (name : Bytes) : Bool := reservedWords.any fun word => Bytes.ofString word = name

/-- A letter or an underscore, then letters, digits and underscores. -/
def isWord : Bytes → Bool
  | [] => false
  | b :: rest => Ascii.isLetter b && rest.all Ascii.isWord

def isName (name : Bytes) : Bool := isWord name && !isReserved name

/-! ## Pieces -/

inductive Keyword where
  | breakKw | doKw | elseKw | elseifKw | endKw | falseKw | forKw | functionKw | gotoKw | ifKw
  | inKw | localKw | returnKw | thenKw | trueKw | whileKw
deriving DecidableEq, Repr

def Keyword.text : Keyword → String
  | .breakKw => "break"
  | .doKw => "do"
  | .elseKw => "else"
  | .elseifKw => "elseif"
  | .endKw => "end"
  | .falseKw => "false"
  | .forKw => "for"
  | .functionKw => "function"
  | .gotoKw => "goto"
  | .ifKw => "if"
  | .inKw => "in"
  | .localKw => "local"
  | .returnKw => "return"
  | .thenKw => "then"
  | .trueKw => "true"
  | .whileKw => "while"

inductive Mark where
  | assign | comma | semicolon | dot | colons | parenOpen | parenClose | braceOpen | braceClose
  | minus
deriving DecidableEq, Repr

def Mark.text : Mark → String
  | .assign => "="
  | .comma => ","
  | .semicolon => ";"
  | .dot => "."
  | .colons => "::"
  | .parenOpen => "("
  | .parenClose => ")"
  | .braceOpen => "\x7b"
  | .braceClose => "\x7d"
  | .minus => "-"

/-- The binary operators that output holds. -/
inductive Operator where
  | add | sub | mul | div | mod | and | or | bxor | band | bor | shl | shr
  | eq | lt | le | ne | ge | gt
deriving DecidableEq, Repr

namespace Operator

/-- Words among the operators bring the blanks around them. -/
def text : Operator → String
  | .add => "+"
  | .sub => "-"
  | .mul => "*"
  | .div => "/"
  | .mod => "%"
  | .and => " and "
  | .or => " or "
  | .bxor => "~"
  | .band => "&"
  | .bor => "|"
  | .shl => "<<"
  | .shr => ">>"
  | .eq => "=="
  | .lt => "<"
  | .le => "<="
  | .ne => "~="
  | .ge => ">="
  | .gt => ">"

/-- How tightly an operator binds in Lua; concatenation has level 8. -/
def level : Operator → Nat
  | .or => 1
  | .and => 2
  | .eq | .lt | .le | .ne | .ge | .gt => 3
  | .bor => 4
  | .bxor => 5
  | .band => 6
  | .shl | .shr => 7
  | .add | .sub => 9
  | .mul | .div | .mod => 10

/-- The operator that renders one of the intermediate form; compound and unknown
ones have none. -/
def ofIr? : Ir.BinaryOp → Option Operator
  | .add => some .add
  | .sub => some .sub
  | .mul => some .mul
  | .div => some .div
  | .mod => some .mod
  | .and => some .and
  | .or => some .or
  | .bxor => some .bxor
  | .band => some .band
  | .bor => some .bor
  | .bshl => some .shl
  | .bshr => some .shr
  | .eq => some .eq
  | .lt => some .lt
  | .le => some .le
  | .ne => some .ne
  | .ge => some .ge
  | .gt => some .gt
  | _ => none

end Operator

inductive Piece where
  | keyword (k : Keyword)
  | mark (m : Mark)
  | operator (op : Operator)
  | name (n : Bytes)
  | numeral (digits : Bytes)
  | literal (spelling : Bytes)
  | blank
deriving DecidableEq, Repr

def Piece.text : Piece → Bytes
  | .keyword k => k.text
  | .mark m => m.text
  | .operator op => op.text
  | .name n => n
  | .numeral digits => digits
  | .literal spelling => spelling
  | .blank => " "

abbrev Pieces := List Piece

/-- The text of a sequence of pieces. -/
def Pieces.text (pieces : Pieces) : Bytes := pieces.flatMap Piece.text

end RustLua.Lua
