import RustLua.Bytes.Utf8
import RustLua.Unicode.Decomposition

/-!
Canonical composition (NFC) of byte strings. Stray bytes stay where they are and
separate what stands around them. No more than thirty marks follow each other:
a joiner goes in front of the next one.
-/

namespace RustLua.Unicode

open Utf8 (Chunk)

/-! ## Hangul syllables -/

def syllableBase : Nat := 0xAC00
def leadBase : Nat := 0x1100
def vowelBase : Nat := 0x1161
def tailBase : Nat := 0x11A7
def leadCount : Nat := 19
def vowelCount : Nat := 21
def tailCount : Nat := 28

def isSyllable (c : Char) : Bool :=
  syllableBase ≤ c.toNat && c.toNat < syllableBase + leadCount * vowelCount * tailCount

/-- A vowel or a tail, which compose with what stands before them. -/
def isVowelOrTail (c : Char) : Bool :=
  (vowelBase ≤ c.toNat && c.toNat < vowelBase + vowelCount) ||
    (tailBase < c.toNat && c.toNat < tailBase + tailCount)

/-- The two or three letters of a syllable. -/
def syllableLetters (c : Char) : List Char :=
  let n := c.toNat - syllableBase
  let lead := Char.ofNat (leadBase + n / (vowelCount * tailCount))
  let vowel := Char.ofNat (vowelBase + n / tailCount % vowelCount)
  if n % tailCount = 0 then [lead, vowel]
  else [lead, vowel, Char.ofNat (tailBase + n % tailCount)]

/-- A syllable from a lead and a vowel, or from a syllable and a tail. -/
def composeSyllable? (a b : Char) : Option Char :=
  if leadBase ≤ a.toNat ∧ a.toNat < leadBase + leadCount ∧
      vowelBase ≤ b.toNat ∧ b.toNat < vowelBase + vowelCount then
    some (Char.ofNat (syllableBase +
      ((a.toNat - leadBase) * vowelCount + (b.toNat - vowelBase)) * tailCount))
  else if isSyllable a ∧ (a.toNat - syllableBase) % tailCount = 0 ∧
      tailBase < b.toNat ∧ b.toNat < tailBase + tailCount then
    some (Char.ofNat (a.toNat + (b.toNat - tailBase)))
  else none

/-! ## Decomposition and composition of characters -/

/-- One step of decomposition; nothing below U+00C0 decomposes. -/
def decomposeOnce? (c : Char) : Option (List Char) :=
  if c.toNat < 0xC0 then none
  else if isSyllable c then some (syllableLetters c)
  else match decompositionTable.find? (·.1 = c.toNat) with
    | some (_, a, 0) => some [Char.ofNat a]
    | some (_, a, b) => some [Char.ofNat a, Char.ofNat b]
    | none => none

/-- Decomposition in at most `steps` steps. No character takes more than four. -/
def decompose : Nat → Char → List Char
  | 0, c => [c]
  | steps + 1, c =>
    match decomposeOnce? c with
    | some parts => parts.flatMap (decompose steps)
    | none => [c]

/-- Is this a row that composition uses? -/
def composes (row : Nat × Nat × Nat) : Bool := row.2.2 ≠ 0 && !notComposed.has row.1

/-- The character that two compose to; nothing below U+0300 comes second. -/
def compose? (a b : Char) : Option Char :=
  if b.toNat < 0x300 then none
  else match composeSyllable? a b with
    | some c => some c
    | none => (decompositionTable.find? fun row =>
        row.2.1 = a.toNat && row.2.2 = b.toNat && composes row).map fun row => Char.ofNat row.1

/-- Can a character compose with one before it? -/
def composesBackward (c : Char) : Bool :=
  isVowelOrTail c || (0x300 ≤ c.toNat &&
    decompositionTable.any fun row => row.2.2 = c.toNat && composes row)

/-- The class of a chunk. -/
def chunkClass : Chunk → Nat
  | .char c => if c.toNat < 0x300 then 0 else combiningClass c
  | .stray _ => 0

/-! ## Sequences -/

/-- The number of bytes that a leading byte announces. -/
def announced (b : UInt8) : Nat :=
  if 0xC2 ≤ b ∧ b ≤ 0xDF then 2
  else if 0xE0 ≤ b ∧ b ≤ 0xEF then 3
  else if 0xF0 ≤ b ∧ b ≤ 0xF7 then 4
  else 1

/-- The chunks of a text. Where the end of the text comes before the announced
end of a character, all that is left counts as stray. -/
def wholeChunks : Nat → Bytes → List Chunk
  | _, [] => []
  | skip + 1, _ :: rest => wholeChunks skip rest
  | 0, b :: rest =>
    if rest.length + 1 < announced b then (b :: rest).map .stray
    else match Utf8.head? (b :: rest) with
      | some (c, n) => .char c :: wholeChunks (n - 1) rest
      | none => .stray b :: wholeChunks 0 rest

/-- How many marks a chunk starts and ends with. -/
def markCount : Chunk → Nat × Nat
  | .stray _ => (0, 0)
  | .char c =>
    if c.toNat < 0x80 then (0, 0)
    else if isSyllable c then (0, (syllableLetters c).length - 1)
    else match markRuns.find? fun (_, runs) => runs.has c.toNat with
      | some (counts, _) => counts
      | none => if chunkClass (.char c) ≠ 0 || composesBackward c then (1, 1) else (0, 0)

/-- The most marks in a row. -/
def maxMarks : Nat := 30

def joiner : Chunk := .char (Char.ofNat 0x34F)

/-- Put joiners where too many marks follow each other, `count` being the number
of marks up to here. -/
def limitMarks (count : Nat) : List Chunk → List Chunk
  | [] => []
  | chunk :: rest =>
    let (first, last) := markCount chunk
    if maxMarks < count + first then joiner :: chunk :: limitMarks first rest
    else chunk :: limitMarks (if first = 0 then last else count + first) rest

def decomposeChunk : Chunk → List Chunk
  | .char c => (decompose 4 c).map .char
  | .stray b => [.stray b]

/-- Put a chunk behind a reversed list, before marks of a greater class. -/
def insertMark (chunk : Chunk) : List Chunk → List Chunk
  | [] => [chunk]
  | last :: before =>
    if chunkClass chunk ≠ 0 ∧ chunkClass chunk < chunkClass last then
      last :: insertMark chunk before
    else chunk :: last :: before

/-- Marks in the order of their classes, those of one class as they came. -/
def orderMarks (chunks : List Chunk) : List Chunk :=
  (chunks.foldl (fun acc chunk => insertMark chunk acc) []).reverse

def composeChunks? : Chunk → Chunk → Option Chunk
  | .char a, .char b => (compose? a b).map .char
  | _, _ => none

/-- Composition: the last starter, the marks behind it, latest first, and the rest. -/
def composeFrom (starter : Option Chunk) (marks : List Chunk) : List Chunk → List Chunk
  | [] => starter.toList ++ marks.reverse
  | chunk :: rest =>
    let k := chunkClass chunk
    let reaches := match marks with
      | [] => true
      | last :: _ => chunkClass last < k
    match if reaches then starter.bind (composeChunks? · chunk) else none with
    | some composed => composeFrom (some composed) marks rest
    | none =>
      if k = 0 then starter.toList ++ marks.reverse ++ composeFrom (some chunk) [] rest
      else composeFrom starter (chunk :: marks) rest

/-- The composed form of a text. -/
def nfc (text : Bytes) : Bytes :=
  let decomposed := (limitMarks 0 (wholeChunks 0 text)).flatMap decomposeChunk
  (composeFrom none [] (orderMarks decomposed)).flatMap Chunk.bytes

end RustLua.Unicode
