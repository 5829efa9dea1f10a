import RustLua.Bytes.Basic

/-!
UTF-8. A byte string is read as a sequence of chunks: well-formed characters,
and stray bytes where no character starts. Overlong forms, surrogates and
values past the last scalar are stray.
-/

namespace RustLua.Utf8

def encode (c : Char) : Bytes := String.utf8EncodeChar c

/-- The two-byte-at-most encoding of the character whose code is the byte. -/
def encodeByte (b : UInt8) : Bytes := encode (Char.ofNat b.toNat)

def isContinuation (b : UInt8) : Bool := 0x80 ≤ b && b ≤ 0xBF

/-- The second bytes that may follow a leading byte of three or four. -/
def isSecond (lead b : UInt8) : Bool :=
  isContinuation b && (lead != 0xE0 || 0xA0 ≤ b) && (lead != 0xED || b ≤ 0x9F)
    && (lead != 0xF0 || 0x90 ≤ b) && (lead != 0xF4 || b ≤ 0x8F)

def low (b : UInt8) : Nat := b.toNat % 64

/-- The character that a byte string starts with, and how many bytes it takes. -/
def head? : Bytes → Option (Char × Nat)
  | [] => none
  | a :: rest =>
    if a < 0x80 then some (Char.ofNat a.toNat, 1)
    else if 0xC2 ≤ a ∧ a ≤ 0xDF then
      match rest with
      | b :: _ =>
        if isContinuation b then some (Char.ofNat (a.toNat % 32 * 64 + low b), 2) else none
      | _ => none
    else if 0xE0 ≤ a ∧ a ≤ 0xEF then
      match rest with
      | b :: c :: _ =>
        if isSecond a b && isContinuation c then
          some (Char.ofNat ((a.toNat % 16 * 64 + low b) * 64 + low c), 3)
        else none
      | _ => none
    else if 0xF0 ≤ a ∧ a ≤ 0xF4 then
      match rest with
      | b :: c :: d :: _ =>
        if isSecond a b && isContinuation c && isContinuation d then
          some (Char.ofNat (((a.toNat % 8 * 64 + low b) * 64 + low c) * 64 + low d), 4)
        else none
      | _ => none
    else none

inductive Chunk where
  | char (c : Char)
  | stray (b : UInt8)
deriving DecidableEq, Repr

def Chunk.bytes : Chunk → Bytes
  | .char c => encode c
  | .stray b => [b]

/-- The chunks after `skip` bytes, which belong to a character already read. -/
def chunksFrom : Nat → Bytes → List Chunk
  | _, [] => []
  | skip + 1, _ :: rest => chunksFrom skip rest
  | 0, b :: rest =>
    match head? (b :: rest) with
    | some (c, n) => .char c :: chunksFrom (n - 1) rest
    | none => .stray b :: chunksFrom 0 rest

def chunks (text : Bytes) : List Chunk := chunksFrom 0 text

def isValid (text : Bytes) : Bool :=
  (chunks text).all fun
    | .char _ => true
    | .stray _ => false

end RustLua.Utf8
