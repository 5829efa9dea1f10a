import RustLua.Token.Basic
import RustLua.Token.Literal

/-!
The lexer. `scan` reads the one token that a text starts with and does not look
at positions; `tokensFrom` walks over the source byte by byte, skips layout and
comments, and puts each token at its position. A NUL byte outside a raw string
ends the source.
-/

namespace RustLua.Token

/-- The one way lexing fails: a byte literal whose escape is cut off by the end
of the source, so that its spelling is not a part of the source. -/
inductive Fault where
  | cutByteLiteral
deriving DecidableEq, Repr

/-- A token without its position, and the bytes it takes. -/
structure Lexeme where
  kind : Kind
  literal : Bytes
  raw : Bytes
  width : Nat
deriving DecidableEq, Repr

/-! ## Layout and comments -/

def lineCommentWidth (text : Bytes) : Nat :=
  (text.takeWhile fun b => b != Ascii.newline && b != Ascii.nul).length

/-- The width of a block comment, or of what is left of it inside `depth`
comments. Comments nest, and the end of the source ends them all. -/
def blockCommentWidth : Nat → Bytes → Nat
  | _, [] => 0
  | depth, [b] => if b = Ascii.nul then 0 else 1 + blockCommentWidth depth []
  | depth, b :: c :: rest =>
    if b = Ascii.nul then 0
    else if b = Ascii.slash ∧ c = Ascii.star then 2 + blockCommentWidth (depth + 1) rest
    else if b = Ascii.star ∧ c = Ascii.slash then
      if depth ≤ 1 then 2 else 2 + blockCommentWidth (depth - 1) rest
    else 1 + blockCommentWidth depth (c :: rest)

/-- The width of the layout byte or comment that a text starts with, 0 if it
starts with neither. -/
def triviaWidth : Bytes → Nat
  | [] => 0
  | b :: rest =>
    if Ascii.isLayout b then 1
    else if b = Ascii.slash ∧ rest.headD 0 = Ascii.slash then lineCommentWidth (b :: rest)
    else if b = Ascii.slash ∧ rest.headD 0 = Ascii.star then blockCommentWidth 0 (b :: rest)
    else 0

/-- The width of a first line that names an interpreter, which is no attribute. -/
def interpreterLineWidth (source : Bytes) : Nat :=
  if source.take 2 == Bytes.ofString "#!" && source.take 3 != Bytes.ofString "#![" then
    lineCommentWidth source
  else 0

/-! ## One token -/

/-- The lexeme of a reading that started at `text`. A faulty literal has no spelling. -/
def Lexeme.ofReading (kind : Kind) (text : Bytes) : Reading → Lexeme
  | .value bytes n => ⟨kind, bytes, text.take n, n⟩
  | .fault error n => ⟨.illegal, error.message, [], n⟩

/-- What an apostrophe starts: a lifetime or a character. -/
def apostropheLexeme (text : Bytes) : Lexeme :=
  if startsLifetime text then
    let name := (text.drop 1).takeWhile Ascii.isWord
    ⟨.lifetime, name, text.take (1 + name.length), 1 + name.length⟩
  else Lexeme.ofReading .charLit text (charLiteral text)

/-- A byte literal keeps its spelling even when it is faulty. -/
def byteLexeme (text : Bytes) : Except Fault Lexeme :=
  let inner := apostropheLexeme (text.drop 1)
  let width := 1 + inner.width
  if text.length < width then .error .cutByteLiteral
  else .ok ⟨inner.kind, inner.literal, text.take width, width⟩

def wordLexeme (text : Bytes) : Lexeme :=
  let word := text.takeWhile Ascii.isWord
  ⟨Kind.ofWord word, word, word, word.length⟩

def numberLexeme (text : Bytes) : Lexeme :=
  let (kind, width) := number text
  ⟨kind, text.take width, text.take width, width⟩

/-- Punctuation, or a byte that starts no token. -/
def symbolLexeme (text : Bytes) : Lexeme :=
  match Kind.punctuationAt? text with
  | some kind =>
    let spelling := Bytes.ofString kind.name
    ⟨kind, spelling, spelling, spelling.length⟩
  | none =>
    let shown := Utf8.encodeByte (text.headD 0)
    ⟨.illegal, shown, shown, 1⟩

/-- The token that a text starts with. The text starts with no layout, no
comment and no NUL. -/
def scan (text : Bytes) : Except Fault Lexeme :=
  let b := text.headD 0
  let next := text.getD 1 0
  if b = Ascii.quote then
    .ok (Lexeme.ofReading .stringLit text ((quoted (text.drop 1)).behind [] 1))
  else if startsRawString text then .ok (Lexeme.ofReading .stringLit text (rawString text))
  else if b = Bytes.ofAscii 'b' ∧ next = Ascii.quote then
    .ok (Lexeme.ofReading .byteStringLit text ((quoted (text.drop 2)).behind [] 2))
  else if b = Bytes.ofAscii 'b' ∧ next = Ascii.apostrophe then byteLexeme text
  else if b = Ascii.apostrophe then .ok (apostropheLexeme text)
  else if Ascii.isLetter b then .ok (wordLexeme text)
  else if Ascii.isDigit b then .ok (numberLexeme text)
  else .ok (symbolLexeme text)

/-! ## The token stream -/

def Lexeme.toToken (l : Lexeme) (pos : Pos) : Token := ⟨l.kind, l.literal, l.raw, pos⟩

/-- The token that marks the end of the source. -/
def endToken (pos : Pos) : Token := ⟨.eof, [], [], pos⟩

/-- The tokens of a text that stands at `pos`, after `skip` bytes that belong to
what was read last. The end token stands where reading stopped, which is one
column too far behind an escape that the end of the source cut off. -/
def tokensFrom : Nat → Bytes → Pos → Except Fault (List Token)
  | skip, [], pos => .ok [endToken (pos.right skip)]
  | skip + 1, b :: rest, pos => tokensFrom skip rest (pos.after b)
  | 0, b :: rest, pos =>
    if 0 < triviaWidth (b :: rest) then
      tokensFrom (triviaWidth (b :: rest) - 1) rest (pos.after b)
    else if b = Ascii.nul then .ok [endToken pos]
    else match scan (b :: rest) with
      | .error fault => .error fault
      | .ok lexeme =>
        match tokensFrom (lexeme.width - 1) rest (pos.after b) with
        | .error fault => .error fault
        | .ok tokens => .ok (lexeme.toToken pos :: tokens)

/-- All tokens of a source; the last one, and only that, is the end token. -/
def tokenize (source : Bytes) : Except Fault (List Token) :=
  tokensFrom (interpreterLineWidth source) source Pos.start

end RustLua.Token
