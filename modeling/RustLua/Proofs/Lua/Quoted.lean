import Mathlib.Algebra.Group.Nat.Defs
import RustLua.Lua.Text
import RustLua.Proofs.Bytes.Digits
import RustLua.Proofs.Bytes.Utf8

/-! # String literals read back

Lua's reader of double-quoted literals, with all its escapes, and what it makes of the
literals that are written here. The point is that an escape ends where it was meant to,
whatever stands behind it: three digits are as many as the reader takes, and a code stands
in braces. Each chunk of a text is therefore read on its own. -/
namespace RustLua.Lua

open Utf8 (Chunk)

variable {text rest bytes : Bytes} {n : Nat} {b : UInt8}

/-! ## Lua's reader -/

/-- What one letter or mark behind a backslash stands for: `\a`, `\b`, `\f`, `\n`, `\r`, `\t`,
`\v`, and the backslash and the quotes themselves. -/
def namedEscapes : List (UInt8 × UInt8) :=
  [(97, 7), (98, 8), (102, 12), (110, 10), (114, 13), (116, 9), (118, 11), (92, 92), (34, 34),
    (39, 39)]

/-- The byte of a code that stands `k` groups of six bits from its end. -/
def tailByte (n k : Nat) : UInt8 := .ofNat (0x80 + n / 64 ^ k % 64)

/-- The bytes of a code below 2^31: UTF-8, which for Lua goes on to six bytes. -/
def codeBytes (n : Nat) : Bytes :=
  if n < 0x80 then [.ofNat n]
  else if n < 0x800 then [.ofNat (0xC0 + n / 64), tailByte n 0]
  else if n < 0x10000 then [.ofNat (0xE0 + n / 64 ^ 2), tailByte n 1, tailByte n 0]
  else if n < 0x200000 then
    [.ofNat (0xF0 + n / 64 ^ 3), tailByte n 2, tailByte n 1, tailByte n 0]
  else if n < 0x4000000 then
    [.ofNat (0xF8 + n / 64 ^ 4), tailByte n 3, tailByte n 2, tailByte n 1, tailByte n 0]
  else [.ofNat (0xFC + n / 64 ^ 5), tailByte n 4, tailByte n 3, tailByte n 2, tailByte n 1,
    tailByte n 0]

/-- Up to three digits, with a value that fits into a byte. -/
def decimalEscape? (text : Bytes) : Option (Bytes × Nat) :=
  let digits := (text.take 3).takeWhile Ascii.isDigit
  match Bytes.digitsValue? 10 digits with
  | some n => if n < 256 then some ([.ofNat n], digits.length) else none
  | none => none

/-- Two hexadecimal digits, behind `\x`. -/
def hexEscape? : Bytes → Option (Bytes × Nat)
  | a :: b :: _ => (Bytes.digitsValue? 16 [a, b]).map fun n => ([.ofNat n], 2)
  | _ => none

/-- A code in braces, behind `\u`. -/
def codeEscape? (text : Bytes) : Option (Bytes × Nat) :=
  let digits := (text.drop 1).takeWhile Ascii.isHexDigit
  let closed := text[0]? = some Ascii.braceOpen ∧
    text[1 + digits.length]? = some Ascii.braceClose
  match Bytes.digitsValue? 16 digits with
  | some n => if closed ∧ n < 2 ^ 31 then some (codeBytes n, digits.length + 2) else none
  | none => none

/-- The white space that `\z` skips. -/
def isSpace (b : UInt8) : Bool := b == Ascii.blank || (9 ≤ b && b ≤ 13)

def isLineBreak (b : UInt8) : Bool := b == Ascii.newline || b == Ascii.carriageReturn

/-- A line break; two different ones count as one. -/
def lineBreakWidth : Bytes → Nat
  | a :: b :: _ => if isLineBreak b && a != b then 2 else 1
  | _ => 1

/-- The bytes that an escape stands for and its width, the backslash having been read. -/
def escape? : Bytes → Option (Bytes × Nat)
  | [] => none
  | b :: rest =>
    match namedEscapes.lookup b with
    | some c => some ([c], 1)
    | none =>
      if b = Bytes.ofAscii 'x' then (hexEscape? rest).map fun (bytes, n) => (bytes, 1 + n)
      else if b = Bytes.ofAscii 'u' then (codeEscape? rest).map fun (bytes, n) => (bytes, 1 + n)
      else if b = Bytes.ofAscii 'z' then some ([], 1 + (rest.takeWhile isSpace).length)
      else if isLineBreak b then some ([Ascii.newline], lineBreakWidth (b :: rest))
      else decimalEscape? (b :: rest)

/-- The value of a literal whose opening quote has been read, and what stands behind the
literal. The first bytes, `skip` of them, belong to an escape that has been read. A literal
does not go on behind a line break or the end of the text. -/
def literalFrom? : Nat → Bytes → Option (Bytes × Bytes)
  | _, [] => none
  | skip + 1, _ :: rest => literalFrom? skip rest
  | 0, b :: rest =>
    if b = Ascii.quote then some ([], rest)
    else if isLineBreak b then none
    else if b = Ascii.backslash then
      match escape? rest with
      | some (bytes, width) =>
        (literalFrom? width rest).map fun (value, after) => (bytes ++ value, after)
      | none => none
    else (literalFrom? 0 rest).map fun (value, after) => (b :: value, after)

/-- The value of the double-quoted literal that a text starts with, and what is left. -/
def literal? : Bytes → Option (Bytes × Bytes)
  | [] => none
  | b :: rest => if b = Ascii.quote then literalFrom? 0 rest else none

theorem literalFrom?_skip (skip : Nat) (text : Bytes) :
    literalFrom? skip text = literalFrom? 0 (text.drop skip) := by
  induction text generalizing skip with
  | nil => cases skip <;> rfl
  | cons b rest ih =>
    cases skip with
    | zero => rfl
    | succ skip => exact ih skip

/-! ## Parts of literals -/

/-- A text that, inside a literal, stands for these bytes wherever it ends. -/
def StandsFor (text bytes : Bytes) : Prop :=
  ∀ rest, literalFrom? 0 (text ++ rest) =
    (literalFrom? 0 rest).map fun (value, after) => (bytes ++ value, after)

theorem standsFor_nil : StandsFor [] [] := by
  intro rest
  simp

theorem StandsFor.append {text' bytes' : Bytes} (h : StandsFor text bytes)
    (h' : StandsFor text' bytes') : StandsFor (text ++ text') (bytes ++ bytes') := by
  intro rest
  rw [List.append_assoc, h, h', Option.map_map]
  simp only [Function.comp_def, List.append_assoc]

theorem standsFor_byte (hq : b ≠ Ascii.quote) (hs : b ≠ Ascii.backslash)
    (hl : isLineBreak b = false) : StandsFor [b] [b] := by
  intro rest
  simp [literalFrom?, hq, hs, hl]

theorem standsFor_escape (h : ∀ rest, escape? (text ++ rest) = some (bytes, text.length)) :
    StandsFor (Ascii.backslash :: text) bytes := by
  intro rest
  have hquote : Ascii.backslash ≠ Ascii.quote := by decide
  have hbreak : isLineBreak Ascii.backslash = false := by decide
  simp [literalFrom?, hquote, hbreak, h, literalFrom?_skip text.length]

theorem standsFor_named {c : UInt8} (h : namedEscapes.lookup b = some c) :
    StandsFor [Ascii.backslash, b] [c] :=
  standsFor_escape fun _ => by simp [escape?, h]

/-! ## Numbers in escapes -/

theorem decimalPadded_three (h : n < 256) : Bytes.decimalPadded 3 n =
    [.ofNat (48 + n / 100), .ofNat (48 + n / 10 % 10), .ofNat (48 + n % 10)] := by
  have hall : ∀ n < 256, Bytes.decimalPadded 3 n =
      [.ofNat (48 + n / 100), .ofNat (48 + n / 10 % 10), .ofNat (48 + n % 10)] := by
    decide +kernel
  exact hall n h

theorem standsFor_decimal (h : n < 256) :
    StandsFor (Ascii.backslash :: Bytes.decimalPadded 3 n) [.ofNat n] := by
  have hdigit : ∀ k < 10, Ascii.isDigit (.ofNat (48 + k)) = true ∧
      Bytes.digitValue? 10 (.ofNat (48 + k)) = some k := by decide
  have hfirst : ∀ k < 10, namedEscapes.lookup (.ofNat (48 + k)) = none ∧
      UInt8.ofNat (48 + k) ≠ Bytes.ofAscii 'x' ∧ UInt8.ofNat (48 + k) ≠ Bytes.ofAscii 'u' ∧
      UInt8.ofNat (48 + k) ≠ Bytes.ofAscii 'z' ∧ isLineBreak (.ofNat (48 + k)) = false := by decide
  obtain ⟨hd₁, hv₁⟩ := hdigit (n / 100) (by omega)
  obtain ⟨hd₂, hv₂⟩ := hdigit (n / 10 % 10) (by omega)
  obtain ⟨hd₃, hv₃⟩ := hdigit (n % 10) (by omega)
  obtain ⟨hnamed, hx, hu, hz, hbreak⟩ := hfirst (n / 100) (by omega)
  have hvalue : (n / 100 * 10 + n / 10 % 10) * 10 + n % 10 = n := by omega
  refine standsFor_escape fun rest => ?_
  rw [decimalPadded_three h]
  -- The digits as bytes: from here on only what they are worth matters.
  generalize UInt8.ofNat (48 + n / 100) = a at *
  generalize UInt8.ofNat (48 + n / 10 % 10) = b at *
  generalize UInt8.ofNat (48 + n % 10) = c at *
  simp [escape?, hnamed, hx, hu, hz, hbreak, decimalEscape?, hd₁, hd₂, hd₃, Bytes.digitsValue?,
    hv₁, hv₂, hv₃, hvalue, h]

theorem takeWhile_isHexDigit (n : Nat) (rest : Bytes) :
    (Bytes.hexadecimal 1 n ++ Ascii.braceClose :: rest).takeWhile Ascii.isHexDigit =
      Bytes.hexadecimal 1 n := by
  have hbrace : Ascii.isHexDigit Ascii.braceClose = false := by decide
  rw [List.takeWhile_append_of_pos fun b hb => Bytes.isHexDigit_of_mem_hexadecimal hb,
    List.takeWhile_cons_of_neg (by simp [hbrace]), List.append_nil]

theorem codeEscape?_hexadecimal (h : n < 2 ^ 31) (rest : Bytes) :
    codeEscape? (Ascii.braceOpen :: (Bytes.hexadecimal 1 n ++ Ascii.braceClose :: rest)) =
      some (codeBytes n, (Bytes.hexadecimal 1 n).length + 2) := by
  have hclose : (Ascii.braceOpen :: (Bytes.hexadecimal 1 n ++ Ascii.braceClose :: rest))[
      1 + (Bytes.hexadecimal 1 n).length]? = some Ascii.braceClose := by
    rw [Nat.add_comm, List.getElem?_cons_succ, List.getElem?_append_right (Nat.le_refl _),
      Nat.sub_self, List.getElem?_cons_zero]
  simp only [codeEscape?, List.drop_succ_cons, List.drop_zero, takeWhile_isHexDigit,
    Bytes.digitsValue?_hexadecimal, List.getElem?_cons_zero, hclose, and_self, h, if_true]

theorem standsFor_code (h : n < 2 ^ 31) :
    StandsFor (Ascii.backslash :: Bytes.ofAscii 'u' :: Ascii.braceOpen ::
      (Bytes.hexadecimal 1 n ++ [Ascii.braceClose])) (codeBytes n) := by
  refine standsFor_escape fun rest => ?_
  have hnamed : namedEscapes.lookup (Bytes.ofAscii 'u') = none := by decide
  have hx : Bytes.ofAscii 'u' ≠ Bytes.ofAscii 'x' := by decide
  simp [escape?, hnamed, hx, codeEscape?_hexadecimal h]
  omega

/-! ## Chunks -/

theorem toNat_lt (c : Char) : c.toNat < 0x110000 := by
  rcases c.valid with h | h
  · exact Nat.lt_trans h (by decide)
  · exact h.2

theorem codeBytes_toNat (c : Char) : codeBytes c.toNat = Utf8.encode c := by
  have hc := toNat_lt c
  have hencode := Utf8.encode_ofNat (v := c.toNat) c.valid
  rw [Char.ofNat_toNat] at hencode
  rw [hencode]
  generalize c.toNat = n at hc
  simp only [codeBytes, tailByte]
  by_cases h1 : n < 0x80
  · rw [if_pos h1, if_pos (by omega)]
  by_cases h2 : n < 0x800
  · have hlead : n / 64 % 32 = n / 64 := Nat.mod_eq_of_lt (by omega)
    rw [if_neg h1, if_pos h2, if_neg (by omega), if_pos (by omega), hlead]
    simp only [Nat.pow_zero, Nat.div_one, Nat.add_comm]
  by_cases h3 : n < 0x10000
  · have hlead : n / 4096 % 16 = n / 64 ^ 2 := Nat.mod_eq_of_lt (by omega)
    rw [if_neg h1, if_neg h2, if_pos h3, if_neg (by omega), if_neg (by omega), if_pos (by omega),
      hlead]
    simp only [Nat.pow_zero, Nat.pow_one, Nat.div_one, Nat.add_comm]
  · have hlead : n / 262144 % 8 = n / 64 ^ 3 := Nat.mod_eq_of_lt (by omega)
    have hsecond : n / 4096 = n / 64 ^ 2 := rfl
    rw [if_neg h1, if_neg h2, if_neg h3, if_pos (by omega), if_neg (by omega), if_neg (by omega),
      if_neg (by omega), hlead, hsecond]
    simp only [Nat.pow_zero, Nat.pow_one, Nat.div_one, Nat.add_comm]

/-- What a part of a literal is for: it stands for its bytes, and it holds nothing but
printable ASCII. -/
structure Spells (text bytes : Bytes) : Prop where
  stands : StandsFor text bytes
  printable : ∀ b ∈ text, 0x20 ≤ b ∧ b ≤ 0x7E

theorem spells_named {c : UInt8} (h : (b, c) ∈ namedEscapes) :
    Spells [Ascii.backslash, b] [c] := by
  have hall : namedEscapes.all fun p =>
      namedEscapes.lookup p.1 = some p.2 ∧ 0x20 ≤ p.1 ∧ p.1 ≤ 0x7E := by decide
  obtain ⟨hlookup, hprintable⟩ := of_decide_eq_true (List.all_eq_true.mp hall _ h)
  exact ⟨standsFor_named hlookup,
    List.forall_mem_cons.mpr ⟨by decide, List.forall_mem_singleton.mpr hprintable⟩⟩

theorem isDigit_of_mem_decimalPadded {width : Nat}
    (h : b ∈ Bytes.decimalPadded width n) : Ascii.isDigit b = true := by
  rcases List.mem_append.mp h with h | h
  · rw [List.eq_of_mem_replicate h]
    decide
  · exact Bytes.isDigit_of_mem_decimal h

theorem printable_of_isHexDigit (h : Ascii.isHexDigit b = true) :
    0x20 ≤ b ∧ b ≤ 0x7E := by
  simp only [Ascii.isHexDigit, Ascii.isDigit, Bool.or_eq_true, Bool.and_eq_true,
    decide_eq_true_eq, UInt8.le_iff_toNat_le] at *
  simp at *
  omega

theorem spells_decimal (h : n < 256) :
    Spells (Ascii.backslash :: Bytes.decimalPadded 3 n) [.ofNat n] := by
  refine ⟨standsFor_decimal h, List.forall_mem_cons.mpr ⟨by decide, fun b hb => ?_⟩⟩
  have hdigit := isDigit_of_mem_decimalPadded hb
  exact printable_of_isHexDigit (by simp [Ascii.isHexDigit, hdigit])

theorem spells_code (h : n < 2 ^ 31) :
    Spells (Ascii.backslash :: Bytes.ofAscii 'u' :: Ascii.braceOpen ::
      (Bytes.hexadecimal 1 n ++ [Ascii.braceClose])) (codeBytes n) := by
  refine ⟨standsFor_code h, ?_⟩
  simp only [List.forall_mem_cons, List.forall_mem_append]
  exact ⟨by decide, by decide, by decide,
    fun b hb => printable_of_isHexDigit (Bytes.isHexDigit_of_mem_hexadecimal hb), by decide, by simp⟩

theorem spells_verbatim (hlow : 0x20 ≤ n) (hhigh : n < 0x7F) (hq : n ≠ 0x22) (hs : n ≠ 0x5C) :
    Spells [.ofNat n] [.ofNat n] := by
  have hall : ∀ n < 0x7F, 0x20 ≤ n ∧ n ≠ 0x22 ∧ n ≠ 0x5C →
      (UInt8.ofNat n ≠ Ascii.quote ∧ UInt8.ofNat n ≠ Ascii.backslash ∧
        isLineBreak (.ofNat n) = false) ∧ 0x20 ≤ UInt8.ofNat n ∧ UInt8.ofNat n ≤ 0x7E := by
    decide +kernel
  obtain ⟨⟨hquote, hslash, hbreak⟩, hprintable⟩ := hall n hhigh ⟨hlow, hq, hs⟩
  exact ⟨standsFor_byte hquote hslash hbreak, by simpa using hprintable⟩

theorem encode_ascii {c : Char} (h : c.toNat < 0x80) : Utf8.encode c = [.ofNat c.toNat] := by
  rw [← codeBytes_toNat, codeBytes, if_pos h]

theorem spells_of_named {c : Char} (hc : c.toNat = n) (hn : n < 0x80)
    (hb : (b, .ofNat n) ∈ namedEscapes) : Spells [Ascii.backslash, b] (Utf8.encode c) := by
  subst hc
  rw [encode_ascii hn]
  exact spells_named hb

theorem spells_ite {p : Prop} [Decidable p] {text' : Bytes} (h : p → Spells text bytes)
    (h' : ¬ p → Spells text' bytes) : Spells (if p then text else text') bytes := by
  split
  · exact h ‹_›
  · exact h' ‹_›

theorem spells_escapeChar (c : Char) : Spells (escapeChar c) (Utf8.encode c) := by
  simp only [escapeChar]
  iterate 9
    refine spells_ite (fun h => spells_of_named h (by decide) (by decide)) fun _ => ?_
  refine spells_ite (fun h => ?_) fun _ => spells_ite (fun h => ?_) fun _ => ?_
  · rw [encode_ascii (by omega)]
    exact spells_decimal (by omega)
  · rw [← codeBytes_toNat]
    exact spells_code (Nat.lt_trans (toNat_lt c) (by decide))
  · rw [encode_ascii (by omega)]
    exact spells_verbatim (by omega) (by omega) ‹_› ‹_›

theorem spells_escapeChunk (c : Chunk) : Spells (escapeChunk c) c.bytes := by
  cases c with
  | char c => exact spells_escapeChar c
  | stray b =>
    have h := spells_decimal (UInt8.toNat_lt b)
    rw [UInt8.ofNat_toNat] at h
    exact h

theorem spells_escape (text : Bytes) : Spells (escape text) (Unicode.nfc text) := by
  have hall : ∀ chunks : List Chunk,
      Spells (chunks.flatMap escapeChunk) (chunks.flatMap Chunk.bytes) := by
    intro chunks
    induction chunks with
    | nil => exact ⟨standsFor_nil, by simp⟩
    | cons c chunks ih =>
      have hc := spells_escapeChunk c
      exact ⟨hc.stands.append ih.stands,
        List.forall_mem_append.mpr ⟨hc.printable, ih.printable⟩⟩
  have h := hall (Utf8.chunks (Unicode.nfc text))
  rwa [Utf8.chunks_bytes] at h

/-- Read as a literal, the spelling of a text is read to its end, stands for the composed
text, and holds printable ASCII only. -/
theorem quote_reads_back (text : Bytes) :
    (∀ rest, literal? (quote text ++ rest) = some (Unicode.nfc text, rest)) ∧
      ∀ b ∈ quote text, 0x20 ≤ b ∧ b ≤ 0x7E := by
  have h := spells_escape text
  constructor
  · intro rest
    have hsplit : quote text ++ rest = Ascii.quote :: (escape text ++ Ascii.quote :: rest) := by
      have hquote : Bytes.ofString "\"" = [Ascii.quote] := rfl
      simp [quote, hquote]
    rw [hsplit, literal?, if_pos rfl, h.stands]
    simp [literalFrom?]
  · have hquotes : ∀ b ∈ Bytes.ofString "\"", 0x20 ≤ b ∧ b ≤ 0x7E :=
      List.forall_mem_singleton.mpr (by decide)
    exact List.forall_mem_append.mpr ⟨List.forall_mem_append.mpr ⟨hquotes, h.printable⟩, hquotes⟩

end RustLua.Lua
