import RustLua.Bytes.Ascii

/-! Positions in source text: lines and columns count from 1, columns in bytes. -/

namespace RustLua

structure Pos where
  line : Nat
  column : Nat
deriving DecidableEq, Repr, Inhabited

namespace Pos

def start : Pos := ⟨1, 1⟩

/-- The position behind a byte. -/
def after (p : Pos) (b : UInt8) : Pos :=
  if b = Ascii.newline then ⟨p.line + 1, 1⟩ else ⟨p.line, p.column + 1⟩

/-- The position behind a text. -/
def afterAll (p : Pos) (text : Bytes) : Pos := text.foldl after p

/-- The position `n` columns further on the same line. -/
def right (p : Pos) (n : Nat) : Pos := ⟨p.line, p.column + n⟩

end Pos
end RustLua
