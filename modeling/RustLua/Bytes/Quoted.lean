import RustLua.Unicode.Printable

/-!
Quoted text: double quotes around the text, backslash escapes for quotes,
backslashes, control characters, stray bytes and characters that do not print.
-/

namespace RustLua.Bytes

/-- One character inside quotes. -/
def quotedChar (c : Char) : Bytes :=
  let n := c.toNat
  if n = 0x22 then "\\\"" else if n = 0x5C then "\\\\"
  else if Unicode.isPrintable c then Utf8.encode c
  else if n = 7 then "\\a" else if n = 8 then "\\b" else if n = 12 then "\\f"
  else if n = 10 then "\\n" else if n = 13 then "\\r" else if n = 9 then "\\t"
  else if n = 11 then "\\v"
  else if n < 0x20 ∨ n = 0x7F then "\\x" ++ hexadecimal 2 n
  else if n < 0x10000 then "\\u" ++ hexadecimal 4 n
  else "\\U" ++ hexadecimal 8 n

def quotedChunk : Utf8.Chunk → Bytes
  | .char c => quotedChar c
  | .stray b => "\\x" ++ hexadecimal 2 b.toNat

def quoted (text : Bytes) : Bytes :=
  "\"" ++ (Utf8.chunks text).flatMap quotedChunk ++ "\""

end RustLua.Bytes
