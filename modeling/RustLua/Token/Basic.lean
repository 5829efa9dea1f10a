import RustLua.Position

/-!
Tokens and their kinds. Every kind has a number, its place in the declaration, and a
name: the spelling for keywords and punctuation, a class name in capitals for the rest.
-/

namespace RustLua

namespace Token

inductive Kind where
  | illegal | eof | ident | intLit | floatLit | stringLit | charLit | byteStringLit | lifetime
  | kwAs | kwBreak | kwConst | kwContinue | kwCrate | kwElse | kwEnum | kwExtern | kwFalse
  | kwFn | kwFor | kwIf | kwImpl | kwIn | kwLet | kwLoop | kwMatch | kwMod | kwMove | kwMut
  | kwPub | kwRef | kwReturn | kwSelf | kwSelfType | kwStatic | kwStruct | kwSuper | kwTrait
  | kwTrue | kwType | kwUnsafe | kwUse | kwWhere | kwWhile | underscore | plus | minus | star
  | slash | percent | caret | amp | pipe | shiftLeft | shiftRight | andAnd | orOr | bang | eqEq
  | notEq | less | greater | lessEq | greaterEq | assign | plusEq | minusEq | starEq | slashEq
  | percentEq | caretEq | ampEq | pipeEq | shiftLeftEq | shiftRightEq | arrow | fatArrow
  | pathSep | parenOpen | parenClose | braceOpen | braceClose | bracketOpen | bracketClose
  | comma | colon | semicolon | dot | dotDot | dotDotEq | pound | question | atSign | dollar
deriving DecidableEq, Repr, Inhabited

namespace Kind

/-- Every kind, in the order of their numbers. -/
def all : List Kind :=
  [.illegal, .eof, .ident, .intLit, .floatLit, .stringLit, .charLit, .byteStringLit, .lifetime,
   .kwAs, .kwBreak, .kwConst, .kwContinue, .kwCrate, .kwElse, .kwEnum, .kwExtern, .kwFalse,
   .kwFn, .kwFor, .kwIf, .kwImpl, .kwIn, .kwLet, .kwLoop, .kwMatch, .kwMod, .kwMove, .kwMut,
   .kwPub, .kwRef, .kwReturn, .kwSelf, .kwSelfType, .kwStatic, .kwStruct, .kwSuper, .kwTrait,
   .kwTrue, .kwType, .kwUnsafe, .kwUse, .kwWhere, .kwWhile, .underscore, .plus, .minus, .star,
   .slash, .percent, .caret, .amp, .pipe, .shiftLeft, .shiftRight, .andAnd, .orOr, .bang,
   .eqEq, .notEq, .less, .greater, .lessEq, .greaterEq, .assign, .plusEq, .minusEq, .starEq,
   .slashEq, .percentEq, .caretEq, .ampEq, .pipeEq, .shiftLeftEq, .shiftRightEq, .arrow,
   .fatArrow, .pathSep, .parenOpen, .parenClose, .braceOpen, .braceClose, .bracketOpen,
   .bracketClose, .comma, .colon, .semicolon, .dot, .dotDot, .dotDotEq, .pound, .question,
   .atSign, .dollar]

/-- The spelling of a keyword or punctuation token, and a class name for all other kinds. -/
def name : Kind → String
  | .illegal => "ILLEGAL"
  | .eof => "EOF"
  | .ident => "IDENT"
  | .intLit => "INT_LIT"
  | .floatLit => "FLOAT_LIT"
  | .stringLit => "STRING_LIT"
  | .charLit => "CHAR_LIT"
  | .byteStringLit => "BYTE_STRING_LIT"
  | .lifetime => "LIFETIME"
  | .kwAs => "as"
  | .kwBreak => "break"
  | .kwConst => "const"
  | .kwContinue => "continue"
  | .kwCrate => "crate"
  | .kwElse => "else"
  | .kwEnum => "enum"
  | .kwExtern => "extern"
  | .kwFalse => "false"
  | .kwFn => "fn"
  | .kwFor => "for"
  | .kwIf => "if"
  | .kwImpl => "impl"
  | .kwIn => "in"
  | .kwLet => "let"
  | .kwLoop => "loop"
  | .kwMatch => "match"
  | .kwMod => "mod"
  | .kwMove => "move"
  | .kwMut => "mut"
  | .kwPub => "pub"
  | .kwRef => "ref"
  | .kwReturn => "return"
  | .kwSelf => "self"
  | .kwSelfType => "Self"
  | .kwStatic => "static"
  | .kwStruct => "struct"
  | .kwSuper => "super"
  | .kwTrait => "trait"
  | .kwTrue => "true"
  | .kwType => "type"
  | .kwUnsafe => "unsafe"
  | .kwUse => "use"
  | .kwWhere => "where"
  | .kwWhile => "while"
  | .underscore => "_"
  | .plus => "+"
  | .minus => "-"
  | .star => "*"
  | .slash => "/"
  | .percent => "%"
  | .caret => "^"
  | .amp => "&"
  | .pipe => "|"
  | .shiftLeft => "<<"
  | .shiftRight => ">>"
  | .andAnd => "&&"
  | .orOr => "||"
  | .bang => "!"
  | .eqEq => "=="
  | .notEq => "!="
  | .less => "<"
  | .greater => ">"
  | .lessEq => "<="
  | .greaterEq => ">="
  | .assign => "="
  | .plusEq => "+="
  | .minusEq => "-="
  | .starEq => "*="
  | .slashEq => "/="
  | .percentEq => "%="
  | .caretEq => "^="
  | .ampEq => "&="
  | .pipeEq => "|="
  | .shiftLeftEq => "<<="
  | .shiftRightEq => ">>="
  | .arrow => "->"
  | .fatArrow => "=>"
  | .pathSep => "::"
  | .parenOpen => "("
  | .parenClose => ")"
  | .braceOpen => "\x7b"
  | .braceClose => "\x7d"
  | .bracketOpen => "["
  | .bracketClose => "]"
  | .comma => ","
  | .colon => ":"
  | .semicolon => ";"
  | .dot => "."
  | .dotDot => ".."
  | .dotDotEq => "..="
  | .pound => "#"
  | .question => "?"
  | .atSign => "@"
  | .dollar => "$"

def number (k : Kind) : Nat := all.idxOf k

/-- The name that belongs to a number; numbers without a kind are shown as they are. -/
def nameOfNumber (n : Int) : Bytes :=
  match if n < 0 then none else all[n.toNat]? with
  | some k => k.name
  | none => "TokenType(" ++ Bytes.integer n ++ ")"

/-- The words that are not plain identifiers, the lone underscore included. -/
def keywords : List Kind :=
  [.kwAs, .kwBreak, .kwConst, .kwContinue, .kwCrate, .kwElse, .kwEnum, .kwExtern, .kwFalse,
   .kwFn, .kwFor, .kwIf, .kwImpl, .kwIn, .kwLet, .kwLoop, .kwMatch, .kwMod, .kwMove, .kwMut,
   .kwPub, .kwRef, .kwReturn, .kwSelf, .kwSelfType, .kwStatic, .kwStruct, .kwSuper, .kwTrait,
   .kwTrue, .kwType, .kwUnsafe, .kwUse, .kwWhere, .kwWhile, .underscore]

/-- A word is a keyword if it spells one, else an identifier. -/
def ofWord (word : Bytes) : Kind :=
  (keywords.find? fun k => word == Bytes.ofString k.name).getD .ident

/-- Punctuation, every spelling before its own beginnings, so that the first match
is the longest. -/
def punctuation : List Kind :=
  [.shiftLeftEq, .shiftRightEq, .dotDotEq, .pathSep, .arrow, .fatArrow, .eqEq, .notEq, .lessEq,
   .greaterEq, .andAnd, .orOr, .shiftLeft, .shiftRight, .plusEq, .minusEq, .starEq, .slashEq,
   .percentEq, .caretEq, .ampEq, .pipeEq, .dotDot, .plus, .minus, .star, .slash, .percent,
   .caret, .amp, .pipe, .bang, .less, .greater, .assign, .parenOpen, .parenClose, .braceOpen,
   .braceClose, .bracketOpen, .bracketClose, .comma, .colon, .semicolon, .dot, .pound,
   .question, .atSign, .dollar]

/-- The longest punctuation that a text starts with. -/
def punctuationAt? (text : Bytes) : Option Kind :=
  punctuation.find? fun k => (Bytes.ofString k.name).isPrefixOf text

end Kind
end Token

/-- In `literal` is the decoded value of a literal, in `raw` its spelling in the source; an illegal
token carries what is wrong in `literal`. -/
structure Token where
  kind : Token.Kind
  literal : Bytes := []
  raw : Bytes := []
  pos : Pos
deriving DecidableEq, Repr, Inhabited

end RustLua
