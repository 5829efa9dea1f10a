import RustLua.Decimal.Text
import RustLua.Unicode.Normal

/-!
Lua's spelling of strings and numbers. String literals hold printable ASCII
only: control bytes and stray bytes take three decimal digits, other characters
their code in braces. Strings are composed before they are spelled.
-/

namespace RustLua.Lua

def escapeChar (c : Char) : Bytes :=
  let n := c.toNat
  if n = 0x5C then "\\\\" else if n = 0x22 then "\\\""
  else if n = 10 then "\\n" else if n = 13 then "\\r" else if n = 9 then "\\t"
  else if n = 7 then "\\a" else if n = 8 then "\\b" else if n = 12 then "\\f"
  else if n = 11 then "\\v"
  else if n < 0x20 ∨ n = 0x7F then "\\" ++ Bytes.decimalPadded 3 n
  else if 0x80 ≤ n then "\\u\x7b" ++ Bytes.hexadecimal 1 n ++ "\x7d"
  else [n.toUInt8]

def escapeChunk : Utf8.Chunk → Bytes
  | .char c => escapeChar c
  | .stray b => "\\" ++ Bytes.decimalPadded 3 b.toNat

/-- The inside of a literal that stands for the composed form of a text. -/
def escape (text : Bytes) : Bytes := (Utf8.chunks (Unicode.nfc text)).flatMap escapeChunk

def quote (text : Bytes) : Bytes := "\"" ++ escape text ++ "\""

/-- In a format template a percent sign is written twice. -/
def doublePercents (text : Bytes) : Bytes :=
  text.flatMap fun b => if b = Ascii.percent then [b, b] else [b]

/-- The template of a format: fragments with a directive between neighbours. -/
def template (fragments : List Bytes) : Bytes :=
  "\"" ++ Bytes.join "%s" (fragments.map fun f => escape (doublePercents f)) ++ "\""

end RustLua.Lua
