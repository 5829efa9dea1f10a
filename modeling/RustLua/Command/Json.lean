import RustLua.Bytes.Ascii
import RustLua.Bytes.Utf8

/-! JSON text without layout, safe to stand in a page: angle brackets and ampersands are
escaped. -/

namespace RustLua.Command

inductive Json where
  | string (text : Bytes)
  | number (n : Int)
  | array (items : List Json)
  | object (fields : List (String × Json))

namespace Json

def escapeChar (c : Char) : Bytes :=
  let n := c.toNat
  if n = 0x22 then "\\\"" else if n = 0x5C then "\\\\"
  else if n = 8 then "\\b" else if n = 12 then "\\f" else if n = 10 then "\\n"
  else if n = 13 then "\\r" else if n = 9 then "\\t"
  else if n < 0x20 ∨ c = '<' ∨ c = '>' ∨ c = '&' ∨ n = 0x2028 ∨ n = 0x2029 then
    "\\u" ++ Bytes.hexadecimal 4 n
  else Utf8.encode c

def escapeChunk : Utf8.Chunk → Bytes
  | .char c => escapeChar c
  | .stray _ => "\\ufffd"

def quoted (text : Bytes) : Bytes := "\"" ++ (Utf8.chunks text).flatMap escapeChunk ++ "\""

mutual

def text : Json → Bytes
  | .string t => quoted t
  | .number n => Bytes.integer n
  | .array items => "[" ++ Bytes.join "," (itemTexts items) ++ "]"
  | .object fields => "\x7b" ++ Bytes.join "," (fieldTexts fields) ++ "\x7d"

def itemTexts : List Json → List Bytes
  | [] => []
  | item :: items => item.text :: itemTexts items

def fieldTexts : List (String × Json) → List Bytes
  | [] => []
  | (key, value) :: fields => (quoted key ++ ":" ++ value.text) :: fieldTexts fields

end

end Json
end RustLua.Command
