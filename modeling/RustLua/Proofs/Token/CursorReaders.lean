import RustLua.Proofs.Token.Cursor

/-! # Words, numbers and literals under a cursor

Each reader moves its cursor by the width that the same reader of texts gives, and what it
cuts out lies inside the source. -/
namespace RustLua.Token.Cursor

variable {source : Bytes} {c : Cursor}

/-! ## Words and numbers -/

section Definitions

variable (source) (c : Cursor)

def readWord : Except Stray (Bytes × Cursor) := do
  let stop := skipWhile source Ascii.isWord (by decide) c
  let word ← cut source c.offset stop.offset
  return (word, stop)

def readSuffix : Except Stray (Bytes × Cursor) :=
  if Ascii.isLetter (byte source c) then readWord source c else .ok ([], c)

def skipDigits : Cursor := skipWhile source isDigitMark (by decide) c

def skipFraction : Cursor :=
  if byte source c = Ascii.dot ∧ Ascii.isDigit (peek source c 1) then
    skipDigits source (next source c)
  else c

def skipExponent : Cursor :=
  if (byte source c = Bytes.ofAscii 'e' ∨ byte source c = Bytes.ofAscii 'E') ∧
      (Ascii.isDigit (peek source c 1) ∨
        ((peek source c 1 = Ascii.plus ∨ peek source c 1 = Ascii.minus) ∧
          Ascii.isDigit (peek source c 2))) then
    skipDigits source (advance source 2 c)
  else c

/-- Read what stands behind the fraction: does it make the number a float? -/
def readExponentPart : Except Stray (Bool × Cursor) := do
  let (ending, stop) ← readSuffix source (skipExponent source c)
  return (decide (c.offset < (skipExponent source c).offset ∨
    ending.headD 0 = Bytes.ofAscii 'f'), stop)

/-- Read what stands behind the whole part. -/
def readFractionPart : Except Stray (Bool × Cursor) := do
  let (isFloat, stop) ← readExponentPart source (skipFraction source c)
  return (decide (c.offset < (skipFraction source c).offset) || isFloat, stop)

/-- Read what stands behind a base mark. -/
def readBasedPart : Except Stray Cursor := do
  let (_, stop) ← readSuffix source (skipWhile source isHexMark (by decide) c)
  return stop

def readNumber : Except Stray (Kind × Bytes × Cursor) :=
  if byte source c == Bytes.ofAscii '0' && (peek source c 1 == Bytes.ofAscii 'x' ||
      peek source c 1 == Bytes.ofAscii 'o' || peek source c 1 == Bytes.ofAscii 'b') then do
    let stop ← readBasedPart source (advance source 2 c)
    let text ← cut source c.offset stop.offset
    return (.intLit, text, stop)
  else do
    let (isFloat, stop) ← readFractionPart source (skipDigits source c)
    let text ← cut source c.offset stop.offset
    return (if isFloat then .floatLit else .intLit, text, stop)

end Definitions

theorem readWord_eq (hc : c.offset ≤ source.length) :
    readWord source c = .ok ((ahead source c).takeWhile Ascii.isWord,
      advance source ((ahead source c).takeWhile Ascii.isWord).length c) := by
  rw [readWord, skipWhile_eq, cut_advance (length_takeWhile_le _ _) hc, take_length_takeWhile]
  rfl

theorem readSuffix_eq :
    readSuffix source c = .ok (suffix (ahead source c),
      advance source (suffix (ahead source c)).length c) := by
  rw [readSuffix, suffix, ← byte_eq]
  split
  · rename_i h
    refine readWord_eq (offset_lt_of_byte fun h0 => ?_).le
    rw [h0] at h
    cases h
  · rfl

theorem skipDigits_eq : skipDigits source c = advance source (digitsWidth (ahead source c)) c :=
  skipWhile_eq c

theorem skipFraction_eq :
    skipFraction source c = advance source (fractionWidth (ahead source c)) c := by
  rw [skipFraction, fractionWidth, ← byte_eq, ← peek_eq, skipDigits_eq, next_eq_advance,
    advance_add, ahead_advance]
  split
  · rfl
  · rfl

theorem skipExponent_eq :
    skipExponent source c = advance source (exponentWidth (ahead source c)) c := by
  rw [skipExponent, exponentWidth, ← byte_eq, ← peek_eq, ← peek_eq, skipDigits_eq, advance_add,
    ahead_advance]
  split
  · rfl
  · rfl

theorem readExponentPart_eq :
    readExponentPart source c = .ok ((exponentPart (ahead source c)).1,
      advance source (exponentPart (ahead source c)).2 c) := by
  have htook : c.offset < c.offset + exponentWidth (ahead source c) ↔
      0 < exponentWidth (ahead source c) := Nat.lt_add_right_iff_pos
  rw [readExponentPart, skipExponent_eq, readSuffix_eq, ahead_advance, advance_add, advance_offset]
  simp only [htook]
  rfl

theorem readFractionPart_eq :
    readFractionPart source c = .ok ((fractionPart (ahead source c)).1,
      advance source (fractionPart (ahead source c)).2 c) := by
  have htook : c.offset < c.offset + fractionWidth (ahead source c) ↔
      0 < fractionWidth (ahead source c) := Nat.lt_add_right_iff_pos
  rw [readFractionPart, skipFraction_eq, readExponentPart_eq, ok_bind, ahead_advance, advance_add,
    advance_offset]
  simp only [htook, fractionPart]
  rfl

theorem readBasedPart_eq :
    readBasedPart source c = .ok (advance source (basedWidth (ahead source c)) c) := by
  rw [readBasedPart, skipWhile_eq, readSuffix_eq, ahead_advance, advance_add]
  rfl

theorem readNumber_eq (hc : c.offset ≤ source.length) :
    readNumber source c = .ok ((number (ahead source c)).1,
      (ahead source c).take (number (ahead source c)).2,
      advance source (number (ahead source c)).2 c) := by
  have hwidth := number_width_le (ahead source c)
  have hbased : (byte source c == Bytes.ofAscii '0' && (peek source c 1 == Bytes.ofAscii 'x' ||
      peek source c 1 == Bytes.ofAscii 'o' || peek source c 1 == Bytes.ofAscii 'b')) =
      startsBased (ahead source c) := by
    rw [byte_eq, peek_eq]
    rfl
  rw [readNumber, hbased]
  by_cases hb : startsBased (ahead source c) = true
  · rw [number_of_based hb] at hwidth ⊢
    rw [if_pos hb, readBasedPart_eq, ok_bind, ahead_advance, advance_add, cut_advance hwidth hc]
    rfl
  · rw [number_of_not_based (Bool.eq_false_iff.mpr hb)] at hwidth ⊢
    rw [if_neg hb, skipDigits_eq, readFractionPart_eq, ok_bind, ahead_advance, advance_add]
    simp only [cut_advance hwidth hc]
    rfl

/-! ## Escapes -/

section Definitions

variable (source) (c : Cursor)

/-- Read the two digits of a `\x` escape. -/
def readHex : Outcome × Cursor :=
  match Bytes.digitsValue? 16 [byte source c, peek source c 1] with
  | some n =>
    if 0x7F < n then (.error .badHexEscape, c) else (.ok [n.toUInt8], advance source 2 c)
  | none => (.error .badHexEscape, c)

/-- Read the braces of a `\u` escape and what stands between them. -/
def readScalar : Except Stray (Outcome × Cursor) :=
  if byte source c = Ascii.braceOpen then
    let start := next source c
    let stop := skipWhile source isScalarInner (by decide) start
    if byte source stop = Ascii.braceClose then do
      let digits ← cut source start.offset stop.offset
      match scalar? (digits.filter (· != Ascii.underscore)) with
      | some char => return (.ok (Utf8.encode char), next source stop)
      | none => return (.error .badUnicodeEscape, next source stop)
    else .ok (.error .openUnicodeEscape, stop)
  else .ok (.error .badUnicodeEscape, c)

/-- Read an escape from its backslash on. -/
def readEscape : Except Stray (Outcome × Cursor) :=
  let b := peek source c 1
  let stop := advance source 2 c
  if b = Bytes.ofAscii 'n' then .ok (.ok [10], stop)
  else if b = Bytes.ofAscii 'r' then .ok (.ok [13], stop)
  else if b = Bytes.ofAscii 't' then .ok (.ok [9], stop)
  else if b = Bytes.ofAscii '0' then .ok (.ok [0], stop)
  else if b = Ascii.backslash ∨ b = Ascii.apostrophe ∨ b = Ascii.quote then .ok (.ok [b], stop)
  else if b = Ascii.newline then .ok (.ok [], skipWhile source Ascii.isLayout (by decide) stop)
  else if b = Bytes.ofAscii 'x' then .ok (readHex source stop)
  else if b = Bytes.ofAscii 'u' then readScalar source stop
  else .ok (.error (.unknownEscape b), stop)

end Definitions

theorem digitsValue?_nul (b : UInt8) : Bytes.digitsValue? 16 [b, 0] = none := by
  cases hb : Bytes.digitValue? 16 b with
  | none => simp [Bytes.digitsValue?, hb]
  | some n => simp [Bytes.digitsValue?, hb, show Bytes.digitValue? 16 0 = none from rfl]

/-- The width of a `\x` escape counts its letter, which is already read. -/
theorem readHex_eq :
    readHex source c = ((hexEscape (ahead source c)).outcome,
      advance source ((hexEscape (ahead source c)).width - 1) c) := by
  rw [readHex, byte_eq, peek_eq]
  rcases ahead source c with _ | ⟨a, _ | ⟨b, rest⟩⟩
  · rfl
  · -- a NUL behind the end is no digit
    have hshort : hexEscape [a] = .fault .badHexEscape 1 := by
      unfold hexEscape
      split
      · exact if_pos (.inl Nat.one_lt_two)
      · rfl
    rw [hshort, List.headD_cons, show [a].getD 1 0 = 0 from rfl, digitsValue?_nul]
    rfl
  · have hlong : ¬ (a :: b :: rest).length < 2 := by simp
    simp only [hexEscape, List.headD_cons, List.getD_cons_succ, List.getD_cons_zero, hlong,
      false_or, List.take_succ_cons, List.take_zero]
    cases Bytes.digitsValue? 16 [a, b] with
    | none => rfl
    | some n =>
      by_cases hn : 0x7F < n
      · simp only [if_pos hn]
        rfl
      · simp only [if_neg hn]
        rfl

theorem readScalar_eq :
    readScalar source c = .ok ((unicodeEscape (ahead source c)).outcome,
      advance source ((unicodeEscape (ahead source c)).width - 1) c) := by
  rw [readScalar]
  by_cases hb : byte source c = Ascii.braceOpen
  · obtain ⟨rest, hrest⟩ := ahead_eq_cons hb (by decide)
    have hstart : ahead source (next source c) = rest := by
      rw [next_eq_advance, ahead_advance, hrest]
      rfl
    have hle : (next source c).offset ≤ source.length :=
      offset_lt_of_byte (by rw [hb]; decide)
    have hdigits := cut_advance (length_takeWhile_le isScalarInner _) hle
    rw [hstart, take_length_takeWhile] at hdigits
    rw [if_pos hb, hrest, unicodeEscape_cons, if_pos rfl]
    simp only [skipWhile_eq, byte_advance, hstart]
    split
    · rw [hdigits, ok_bind]
      have hmoved : next source (advance source (rest.takeWhile isScalarInner).length
          (next source c)) = advance source ((rest.takeWhile isScalarInner).length + 2) c := by
        rw [next_eq_advance, next_eq_advance, advance_add, advance_add]
        congr 1
        omega
      rw [hmoved]
      cases scalar? ((rest.takeWhile isScalarInner).filter (· != Ascii.underscore)) with
      | none => rfl
      | some char => rfl
    · rfl
  · rw [if_neg hb]
    rw [byte_eq] at hb
    cases htext : ahead source c with
    | nil => rfl
    | cons b rest =>
      rw [htext, List.headD_cons] at hb
      rw [unicodeEscape_cons, if_neg hb]
      rfl

/-- Every escape takes the byte behind its backslash. -/
theorem hexEscape_width_pos (text : Bytes) : 0 < (hexEscape text).width := by
  unfold hexEscape
  split
  · split
    · exact Nat.one_pos
    · exact Nat.succ_pos 2
  · exact Nat.one_pos

theorem unicodeEscape_width_pos (text : Bytes) : 0 < (unicodeEscape text).width := by
  cases text with
  | nil => exact Nat.one_pos
  | cons b rest =>
    rw [unicodeEscape_cons]
    split
    · split
      · split
        · exact Nat.succ_pos _
        · exact Nat.succ_pos _
      · exact Nat.succ_pos _
    · exact Nat.one_pos

/-- Two readers that decide by the same condition. -/
theorem ite_eq_read {p : Prop} [Decidable p] {x y : Except Stray (Outcome × Cursor)}
    {r q : Reading} (hx : x = .ok (r.outcome, advance source (1 + r.width) c))
    (hy : y = .ok (q.outcome, advance source (1 + q.width) c)) :
    (if p then x else y) = .ok ((if p then r else q).outcome,
      advance source (1 + (if p then r else q).width) c) := by
  split
  · exact hx
  · exact hy

theorem readEscape_eq :
    readEscape source c = .ok ((escape ((ahead source c).drop 1)).outcome,
      advance source (1 + (escape ((ahead source c).drop 1)).width) c) := by
  have hb : peek source c 1 = ((ahead source c).drop 1).headD 0 := by
    rw [peek_eq, headD_eq_getD, List.getD_eq_getElem?_getD, List.getD_eq_getElem?_getD,
      List.getElem?_drop]
  have hstop : ahead source (advance source 2 c) = ((ahead source c).drop 1).drop 1 := by
    rw [ahead_advance, List.drop_drop]
  have hhex := hexEscape_width_pos (((ahead source c).drop 1).drop 1)
  have hunicode := unicodeEscape_width_pos (((ahead source c).drop 1).drop 1)
  have hmove {w : Nat} (hw : 0 < w) : 2 + (w - 1) = 1 + w := by omega
  rw [readEscape, escape, hb, skipWhile_eq, readHex_eq, readScalar_eq, hstop]
  simp only [advance_add]
  refine ite_eq_read rfl ?_
  refine ite_eq_read rfl ?_
  refine ite_eq_read rfl ?_
  refine ite_eq_read rfl ?_
  refine ite_eq_read rfl ?_
  refine ite_eq_read ?_ (ite_eq_read ?_ (ite_eq_read ?_ rfl))
  · rw [Reading.width, ← Nat.add_assoc]
    rfl
  · rw [hmove hhex]
  · rw [hmove hunicode]

/-! ## Literals -/

section Definitions

variable (source) (c : Cursor)

/-- Read a quoted literal behind its opening quote, of which a part is already decoded. -/
def readQuoted (part : Bytes) (c : Cursor) : Except Stray (Outcome × Cursor) :=
  if byte source c = Ascii.quote then .ok (.ok part, next source c)
  else if byte source c = 0 then .ok (.error .unterminated, c)
  else if byte source c = Ascii.backslash then
    match _h : readEscape source c with
    | .error stray => .error stray
    | .ok (.error error, stop) => .ok (.error error, stop)
    | .ok (.ok bytes, stop) => readQuoted (part ++ bytes) stop
  else readQuoted (part ++ [byte source c]) (next source c)
termination_by source.length - c.offset
decreasing_by
  · have hlt : c.offset < source.length := offset_lt_of_byte ‹_›
    rw [readEscape_eq] at _h
    rw [← (Prod.mk.inj (Except.ok.inj _h)).2, advance_offset]
    omega
  · exact Nat.sub_succ_lt_self _ _ (offset_lt_of_byte ‹_›)

/-- Does a raw string start at the cursor? -/
def startsRaw : Bool :=
  byte source c == Bytes.ofAscii 'r' &&
    byte source (skipWhile source (· == Ascii.hash) (by decide) (next source c)) == Ascii.quote

/-- Read a raw string from its first letter on. -/
def readRaw : Except Stray (Outcome × Cursor) := do
  let start := next source c
  let stop := skipWhile source (· == Ascii.hash) (by decide) start
  let hashes := stop.offset - start.offset
  let body := next source stop
  let rest ← cut source body.offset source.length
  match Bytes.find? (rawCloser hashes) rest with
  | none => return (.error .openRawString, advance source (source.length - body.offset) body)
  | some k => do
    let text ← cut source body.offset (body.offset + k)
    return (.ok text, advance source (k + (rawCloser hashes).length) body)

/-- Read what stands behind the opening apostrophe of a character. -/
def readChar : Except Stray (Outcome × Cursor) :=
  if byte source c = Ascii.backslash then readEscape source c
  else do
    let rest ← cut source c.offset source.length
    match Utf8.head? rest with
    | some (char, n) =>
      if char.toNat = 0xFFFD ∨ char.toNat = 0 then return (.error .badChar, c)
      else return (.ok (rest.take n), advance source n c)
    | none => return (.error .badChar, c)

/-- Read a character with both its apostrophes. -/
def readCharLiteral : Except Stray (Outcome × Cursor) := do
  let (outcome, stop) ← readChar source (next source c)
  match outcome with
  | .error error => return (.error error, stop)
  | .ok value =>
    if byte source stop = Ascii.apostrophe then return (.ok value, next source stop)
    else return (.error .openChar, stop)

/-- The token of a literal; a faulty one has no spelling. -/
def literal (kind : Kind) (pos : Pos) : Outcome × Cursor → Except Stray (Token × Cursor)
  | (.error error, stop) => .ok (⟨.illegal, error.message, [], pos⟩, stop)
  | (.ok value, stop) => do
    let raw ← cut source c.offset stop.offset
    return (⟨kind, value, raw, pos⟩, stop)

/-- Read the lifetime or the character that an apostrophe starts. -/
def readApostrophe (pos : Pos) : Except Stray (Token × Cursor) :=
  if Ascii.isLetter (peek source c 1) && peek source c 2 != Ascii.apostrophe then do
    let (name, stop) ← readWord source (next source c)
    let raw ← cut source c.offset stop.offset
    return (⟨.lifetime, name, raw, pos⟩, stop)
  else do
    let read ← readCharLiteral source c
    literal source c .charLit pos read

end Definitions

theorem outcome_behind (part : Bytes) (k m : Nat) (r : Reading) :
    (r.behind part k).outcome = (r.behind part m).outcome := by
  cases r <;> rfl

theorem quoted_cons (b : UInt8) (rest : Bytes) :
    quoted (b :: rest) =
      if b = Ascii.quote then .value [] 1
      else if b = Ascii.nul then .fault .unterminated 0
      else if b = Ascii.backslash then
        match escape rest with
        | .value bytes n => (quotedFrom n rest).behind bytes 1
        | .fault error n => .fault error (1 + n)
      else (quoted rest).behind [b] 1 := rfl

/-- Behind a decoded escape the literal goes on. -/
theorem quoted_escape {rest bytes : Bytes} {n : Nat} (h : escape rest = .value bytes n) :
    quoted (Ascii.backslash :: rest) = (quoted (rest.drop n)).behind bytes (1 + n) := by
  rw [quoted_cons, if_neg (by decide), if_neg (by decide), if_pos rfl, h]
  simp only
  rw [quotedFrom_skip (escape_value_le h), Reading.behind_behind, List.append_nil]
  rfl

theorem quoted_escape_fault {rest : Bytes} {error : LiteralError} {n : Nat}
    (h : escape rest = .fault error n) :
    quoted (Ascii.backslash :: rest) = .fault error (1 + n) := by
  rw [quoted_cons, if_neg (by decide), if_neg (by decide), if_pos rfl, h]

theorem readQuoted_eq (part : Bytes) (c : Cursor) :
    readQuoted source part c = .ok (((quoted (ahead source c)).behind part 0).outcome,
      advance source (quoted (ahead source c)).width c) := by
  induction hn : (ahead source c).length using Nat.strongRecOn generalizing part c with
  | _ n ih =>
    subst hn
    have hbyte : byte source c = (ahead source c).headD 0 := byte_eq
    have hescape : readEscape source c = _ := readEscape_eq
    cases htext : ahead source c with
    | nil =>
      rw [htext] at hbyte
      rw [readQuoted, hbyte]
      rfl
    | cons b rest =>
      rw [htext, List.headD_cons] at hbyte
      rw [htext, List.drop_succ_cons, List.drop_zero] at hescape
      rw [readQuoted, hbyte]
      by_cases hquote : b = Ascii.quote
      · rw [if_pos hquote, quoted_cons, if_pos hquote, Reading.behind, List.append_nil]
        rfl
      rw [if_neg hquote]
      by_cases hnul : b = 0
      · rw [if_pos hnul, quoted_cons, if_neg hquote, if_pos (show b = Ascii.nul from hnul)]
        rfl
      rw [if_neg hnul]
      by_cases hslash : b = Ascii.backslash
      · subst hslash
        rw [if_pos rfl]
        cases hread : escape rest with
        | fault error k =>
          rw [hread] at hescape
          split
          · rename_i hr
            cases hescape.symm.trans hr
          · rename_i hr
            cases hescape.symm.trans hr
            rw [quoted_escape_fault hread]
            rfl
          · rename_i hr
            cases hescape.symm.trans hr
        | value bytes k =>
          rw [hread] at hescape
          have hstop : ahead source (advance source (1 + k) c) = rest.drop k := by
            rw [ahead_advance, htext, Nat.add_comm, List.drop_succ_cons]
          split
          · rename_i hr
            cases hescape.symm.trans hr
          · rename_i hr
            cases hescape.symm.trans hr
          · rename_i hr
            cases hescape.symm.trans hr
            have hshort : (rest.drop k).length < (ahead source c).length := by
              rw [htext, List.length_drop, List.length_cons]
              omega
            have hmore := ih _ hshort (part ++ bytes) (advance source (1 + k) c) (by rw [hstop])
            rw [hstop] at hmore
            refine Eq.trans hmore ?_
            rw [advance_add, quoted_escape hread, Reading.behind_behind, Reading.width_behind,
              outcome_behind _ 0 (0 + (1 + k))]
      · have hnext : ahead source (next source c) = rest := by
          rw [next_eq_advance, ahead_advance, htext]
          rfl
        rw [if_neg hslash, quoted_cons, if_neg hquote, if_neg (show b ≠ Ascii.nul from hnul),
          if_neg hslash, ih rest.length (by simp [htext]) _ (next source c) (by rw [hnext]), hnext,
          Reading.behind_behind, Reading.width_behind, next_eq_advance, advance_add]
        rw [outcome_behind _ 0 (0 + 1)]

theorem startsRaw_eq : startsRaw source c = startsRawString (ahead source c) := by
  rw [startsRaw, Start.startsRawString_eq, byte_eq, skipWhile_eq, next_eq_advance, advance_add,
    byte_advance, ahead_advance, Nat.add_comm]
  rfl

theorem readRaw_eq (h : startsRawString (ahead source c) = true) :
    readRaw source c = .ok ((rawString (ahead source c)).outcome,
      advance source (rawString (ahead source c)).width c) := by
  have hopen : rawHashes (ahead source c) + 1 < (ahead source c).length := by
    rw [Start.startsRawString_eq, Bool.and_eq_true, beq_iff_eq, beq_iff_eq] at h
    exact lt_length_of_getD_ne (by rw [h.2]; decide)
  have hstop : skipWhile source (· == Ascii.hash) (by decide) (next source c) =
      advance source (1 + rawHashes (ahead source c)) c := by
    rw [skipWhile_eq, next_eq_advance, ahead_advance, advance_add]
    rfl
  have hbody : next source (advance source (1 + rawHashes (ahead source c)) c) =
      advance source (rawHashes (ahead source c) + 2) c := by
    rw [next_eq_advance, advance_add, Nat.add_comm 1]
  have hhashes : (advance source (1 + rawHashes (ahead source c)) c).offset -
      (next source c).offset = rawHashes (ahead source c) := by
    rw [next_eq_advance, advance_offset, advance_offset]
    omega
  have hle : (advance source (rawHashes (ahead source c) + 2) c).offset ≤ source.length := by
    rw [ahead_length] at hopen
    rw [advance_offset]
    omega
  have hrest : source.length - (advance source (rawHashes (ahead source c) + 2) c).offset =
      ((ahead source c).drop (rawHashes (ahead source c) + 2)).length := by
    rw [← ahead_advance, ahead_length]
  rw [readRaw, hstop, hbody, hhashes, cut_to_end hle, ok_bind, ahead_advance, rawString_eq, hrest,
    advance_add]
  cases hfind : Bytes.find? (rawCloser (rawHashes (ahead source c)))
      ((ahead source c).drop (rawHashes (ahead source c) + 2)) with
  | none => rfl
  | some k =>
    have hk : k ≤ ((ahead source c).drop (rawHashes (ahead source c) + 2)).length :=
      Nat.le_trans (Nat.le_add_right _ _) (find?_add_le hfind)
    rw [← ahead_advance] at hk
    have htext := cut_advance hk hle
    rw [advance_offset k, ahead_advance] at htext
    simp only [htext, ok_bind, advance_add, rawCloser, List.length_cons, List.length_replicate,
      ← Nat.add_assoc]
    rfl

theorem readChar_eq (hc : c.offset ≤ source.length) :
    readChar source c = .ok ((charInner (ahead source c)).outcome,
      advance source ((charInner (ahead source c)).width - 1) c) := by
  rw [readChar, charInner, ← byte_eq]
  by_cases hb : byte source c = Ascii.backslash
  · have hmove (w : Nat) : 2 + w - 1 = 1 + w := by omega
    rw [if_pos hb, if_pos hb, readEscape_eq, Reading.width_behind, hmove, outcome_behind _ 2 0,
      Reading.behind_nil_zero]
  · rw [if_neg hb, if_neg hb, cut_to_end hc, ok_bind]
    cases Utf8.head? (ahead source c) with
    | none => rfl
    | some found =>
      obtain ⟨char, n⟩ := found
      simp only
      split
      · rfl
      · rw [Reading.width, Nat.add_sub_cancel_left]
        rfl

theorem readCharLiteral_eq (hc : c.offset < source.length) :
    readCharLiteral source c = .ok ((charLiteral (ahead source c)).outcome,
      advance source (charLiteral (ahead source c)).width c) := by
  have hpos := charInner_width_pos ((ahead source c).drop 1)
  have hread := readChar_eq (c := next source c) hc
  have hmove {w : Nat} (hw : 0 < w) : 1 + (w - 1) = w := by omega
  rw [next_eq_advance, ahead_advance, advance_add, hmove hpos] at hread
  rw [readCharLiteral, next_eq_advance, hread, ok_bind, charLiteral_eq]
  cases charInner ((ahead source c).drop 1) with
  | fault error n => rfl
  | value bytes n =>
    simp only [Reading.outcome, Reading.width, byte_advance, next_eq_advance, advance_add]
    split
    · rfl
    · rfl

theorem literal_eq {kind : Kind} {pos : Pos} {r : Reading} (hc : c.offset ≤ source.length)
    (hr : ∀ bytes n, r = .value bytes n → n ≤ (ahead source c).length) :
    literal source c kind pos (r.outcome, advance source r.width c) =
      .ok ((Lexeme.ofReading kind (ahead source c) r).toToken pos, advance source r.width c) := by
  cases r with
  | fault error n => rfl
  | value bytes n =>
    simp only [Reading.outcome, Reading.width, literal, cut_advance (hr bytes n rfl) hc, ok_bind]
    rfl

theorem readApostrophe_eq (hc : c.offset < source.length) (pos : Pos) :
    readApostrophe source c pos = .ok ((apostropheLexeme (ahead source c)).toToken pos,
      advance source (apostropheLexeme (ahead source c)).width c) := by
  have hlifetime : (Ascii.isLetter (peek source c 1) && peek source c 2 != Ascii.apostrophe) =
      startsLifetime (ahead source c) := by
    rw [peek_eq, peek_eq]
    rfl
  rw [readApostrophe, hlifetime, apostropheLexeme_eq]
  by_cases hs : startsLifetime (ahead source c) = true
  · have hword := readWord_eq (c := next source c) hc
    rw [next_eq_advance, ahead_advance, advance_add] at hword
    have hraw := cut_advance (lifetimeLexeme_width_le hs) hc.le
    rw [lifetimeLexeme] at hraw
    rw [if_pos hs, if_pos hs, next_eq_advance, hword, ok_bind]
    simp only [hraw, ok_bind]
    rfl
  · rw [if_neg hs, if_neg hs, readCharLiteral_eq hc, ok_bind,
      literal_eq hc.le fun bytes n h => (settled_charLiteral _ bytes n h).1, ofReading_width]

end RustLua.Token.Cursor
