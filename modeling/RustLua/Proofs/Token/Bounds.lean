import RustLua.Proofs.Token.CursorReaders

/-! # Reading stays inside the source

One step passes over layout and reads a token, and a run takes steps up to the end token.
The steps give the tokens that the text gives, and no cut leaves the source, with one
exception: a byte literal whose escape is cut off by the end. -/
namespace RustLua.Token.Cursor

variable {source : Bytes} {c stop : Cursor} {t : Token} {stray : Stray}

/-! ## One step -/

section Definitions

variable (source) (c : Cursor)

/-- Read the token that starts at the cursor. -/
def tokenAt : Except Stray (Token × Cursor) :=
  if byte source c = 0 then .ok (endToken c.pos, c)
  else if byte source c = Ascii.quote then do
    let read ← readQuoted source [] (advance source 1 c)
    literal source c .stringLit c.pos read
  else if startsRaw source c then do
    let read ← readRaw source c
    literal source c .stringLit c.pos read
  else if byte source c = Bytes.ofAscii 'b' ∧ peek source c 1 = Ascii.quote then do
    let read ← readQuoted source [] (advance source 2 c)
    literal source c .byteStringLit c.pos read
  else if byte source c = Bytes.ofAscii 'b' ∧ peek source c 1 = Ascii.apostrophe then do
    let (t, stop) ← readApostrophe source (next source c) c.pos
    let raw ← cut source c.offset stop.offset
    return ({ t with raw := raw }, stop)
  else if byte source c = Ascii.apostrophe then readApostrophe source c c.pos
  else if Ascii.isLetter (byte source c) then do
    let (word, stop) ← readWord source c
    return (⟨Kind.ofWord word, word, word, c.pos⟩, stop)
  else if Ascii.isDigit (byte source c) then do
    let (kind, text, stop) ← readNumber source c
    return (⟨kind, text, text, c.pos⟩, stop)
  else do
    let rest ← cut source c.offset source.length
    match Kind.punctuationAt? rest with
    | some kind =>
      let spelling := Bytes.ofString kind.name
      return (⟨kind, spelling, spelling, c.pos⟩, advance source spelling.length c)
    | none =>
      let shown := Utf8.encodeByte (byte source c)
      return (⟨.illegal, shown, shown, c.pos⟩, next source c)

/-- Pass over layout and read a token. -/
def nextToken : Except Stray (Token × Cursor) := tokenAt source (skipTrivia source c)

end Definitions

/-- A reading of the text, as the step of a cursor. -/
def stepOf (source : Bytes) (c : Cursor) : Except Fault Lexeme → Except Stray (Token × Cursor)
  | .ok l => .ok (l.toToken c.pos, advance source l.width c)
  | .error _ => .error ⟨c.offset, source.length + 1⟩

theorem quotedLiteral_eq (k : Nat) (kind : Kind) (hc : c.offset ≤ source.length) :
    (do
      let read ← readQuoted source [] (advance source k c)
      literal source c kind c.pos read) =
      stepOf source c (literalAt kind (fun text => (quoted (text.drop k)).behind [] k)
        (ahead source c)) := by
  have hbound := fun bytes n h => (settled_quoted k (ahead source c) bytes n h).1
  rw [readQuoted_eq, ok_bind, ahead_advance, advance_add, outcome_behind _ 0 k]
  rw [← Reading.width_behind [] k, literal_eq hc hbound, literalAt, stepOf, ofReading_width]

/-- A byte literal is cut out although it may be faulty, and so one cut can leave the source. -/
theorem byteLiteral_eq (hb : byte source c = Bytes.ofAscii 'b')
    (hnext : peek source c 1 = Ascii.apostrophe) :
    (do
      let (t, stop) ← readApostrophe source (next source c) c.pos
      let raw ← cut source c.offset stop.offset
      return ({ t with raw := raw }, stop)) = stepOf source c (byteLexeme (ahead source c)) := by
  obtain ⟨body, hbody⟩ := ahead_eq_cons_cons hb hnext (by decide) (by decide)
  have hlength : (ahead source c).length = source.length - c.offset := ahead_length
  rw [hbody, List.length_cons, List.length_cons] at hlength
  have hinner := readApostrophe_eq (c := next source c)
    (show c.offset + 1 < source.length by omega) c.pos
  rw [next_eq_advance, ahead_advance, advance_add] at hinner
  rw [next_eq_advance, hinner, ok_bind]
  cases hlex : byteLexeme (ahead source c) with
  | error fault =>
    rw [hbody] at hlex hinner ⊢
    obtain rfl := byteLexeme_eq_error hlex
    have hstray : cut source c.offset (advance source
        (1 + (apostropheLexeme [Ascii.apostrophe, Ascii.backslash]).width) c).offset =
        .error ⟨c.offset, source.length + 1⟩ := by
      have hwidth : (apostropheLexeme [Ascii.apostrophe, Ascii.backslash]).width = 3 := rfl
      have hstop : c.offset + (1 + 3) = source.length + 1 := by
        rw [List.length_singleton] at hlength
        omega
      rw [hwidth, advance_offset, hstop, cut, if_neg (by omega)]
    exact congrArg (· >>= _) hstray
  | ok l =>
    unfold byteLexeme at hlex
    simp only at hlex
    split at hlex
    · cases hlex
    · rename_i hle
      cases hlex
      have hraw := cut_advance (Nat.le_of_not_lt hle) (by omega)
      simp only [hraw, ok_bind]
      rfl

theorem tokenAt_eq (h : byte source c ≠ 0) :
    tokenAt source c = stepOf source c (scan (ahead source c)) := by
  have hlt := offset_lt_of_byte h
  have hhead : (ahead source c).headD 0 = byte source c := byte_eq.symm
  have hnext : (ahead source c).getD 1 0 = peek source c 1 := (peek_eq 1).symm
  rw [tokenAt, if_neg h, scan, hhead, hnext, startsRaw_eq]
  simp only
  split_ifs with _ hraw _ hbyte
  · exact quotedLiteral_eq 1 .stringLit hlt.le
  · rw [readRaw_eq hraw, ok_bind,
      literal_eq hlt.le fun bytes n h => (settled_rawString _ bytes n h).1, stepOf, ofReading_width]
  · exact quotedLiteral_eq 2 .byteStringLit hlt.le
  · exact byteLiteral_eq hbyte.1 hbyte.2
  · exact readApostrophe_eq hlt c.pos
  · rw [readWord_eq hlt.le]
    rfl
  · rw [readNumber_eq hlt.le]
    rfl
  · rw [cut_to_end hlt.le, ok_bind, symbolLexeme, ← hhead]
    cases Kind.punctuationAt? (ahead source c) with
    | none => rfl
    | some kind => rfl

theorem atEnd_iff_byte : AtEnd (ahead source c) ↔ byte source c = 0 := by
  rw [byte_eq]
  cases ahead source c with
  | nil => exact iff_of_true (by simp [AtEnd]) rfl
  | cons b rest => simp [AtEnd, Ascii.nul]

/-- A step ends the source, or reads the token that the text ahead starts with. -/
theorem nextToken_eq (source : Bytes) (c : Cursor) :
    let start := skipTrivia source c
    (AtEnd (ahead source start) ∧ nextToken source c = .ok (endToken start.pos, start)) ∨
      ¬ AtEnd (ahead source start) ∧
        nextToken source c = stepOf source start (scan (ahead source start)) := by
  intro start
  by_cases h : byte source start = 0
  · exact .inl ⟨atEnd_iff_byte.mpr h, if_pos h⟩
  · exact .inr ⟨fun hend => h (atEnd_iff_byte.mp hend), tokenAt_eq h⟩

/-- A step that does not give the end token moves on, from a place inside the source. -/
theorem nextToken_moves (h : nextToken source c = .ok (t, stop)) (ht : t.kind ≠ .eof) :
    c.offset < source.length ∧ c.offset < stop.offset := by
  have hle := (skipTrivia_spec source c).1
  rcases nextToken_eq source c with ⟨_, hend⟩ | ⟨hmore, hstep⟩
  · cases hend.symm.trans h
    exact absurd rfl ht
  · have hin : (skipTrivia source c).offset < source.length :=
      offset_lt_of_byte fun h0 => hmore (atEnd_iff_byte.mpr h0)
    rw [hstep] at h
    cases hl : scan (ahead source (skipTrivia source c)) with
    | error fault =>
      rw [hl] at h
      cases h
    | ok l =>
      rw [hl] at h
      cases h
      have hpos := scan_width_pos hl
      rw [advance_offset]
      omega

/-! ## A run -/

/-- The tokens from a cursor on. -/
def tokens (source : Bytes) (c : Cursor) : Except Stray (List Token) :=
  match _h : nextToken source c with
  | .error stray => .error stray
  | .ok (t, stop) =>
    if t.kind = .eof then .ok [t]
    else do
      let more ← tokens source stop
      return t :: more
termination_by source.length - c.offset
decreasing_by
  obtain ⟨hin, hmoves⟩ := nextToken_moves _h ‹_›
  omega

theorem tokens_of_stray (h : nextToken source c = .error stray) :
    tokens source c = .error stray := by
  rw [tokens]
  split
  · rename_i hr
    cases hr.symm.trans h
    rfl
  · rename_i hr
    cases hr.symm.trans h

theorem tokens_of_step (h : nextToken source c = .ok (t, stop)) :
    tokens source c =
      if t.kind = .eof then .ok [t]
      else do
        let more ← tokens source stop
        return t :: more := by
  rw [tokens]
  split
  · rename_i hr
    cases hr.symm.trans h
  · rename_i hr
    cases hr.symm.trans h
    rfl

/-- Where the first token is looked for: behind an interpreter line. -/
def opening (source : Bytes) : Cursor :=
  if source.take 2 == Bytes.ofString "#!" && source.take 3 != Bytes.ofString "#![" then
    skipLine source ⟨0, Pos.start⟩
  else ⟨0, Pos.start⟩

def tokenize (source : Bytes) : Except Stray (List Token) := tokens source (opening source)

/-- A reading of the text, as the run of a cursor. Its one fault is one cut. -/
def runOf (source : Bytes) : Except Fault (List Token) → Except Stray (List Token)
  | .ok tokens => .ok tokens
  | .error .cutByteLiteral => .error ⟨source.length - 3, source.length + 1⟩

/-- A step fails at a cut byte literal that ends the source, and nowhere else. -/
theorem nextToken_eq_error_iff :
    nextToken source c = .error stray ↔
      ahead source (skipTrivia source c) = Bytes.ofString "b'\\" ∧
        stray = ⟨source.length - 3, source.length + 1⟩ := by
  have hlength := @ahead_length source (skipTrivia source c)
  rcases nextToken_eq source c with ⟨hend, h⟩ | ⟨_, h⟩
  · rw [h]
    refine iff_of_false (by simp) fun hb => ?_
    rw [hb.1] at hend
    exact absurd (hend _ rfl) (by decide)
  · rw [h, ← scan_eq_error_iff]
    cases hl : scan (ahead source (skipTrivia source c)) with
    | ok l => simp [stepOf]
    | error fault =>
      have htext := scan_eq_error_iff.mp hl
      rw [htext] at hlength
      have hoffset : (skipTrivia source c).offset = source.length - 3 := by
        have hthree : (Bytes.ofString "b'\\").length = 3 := rfl
        omega
      rw [stepOf, hoffset]
      simp [eq_comm]

theorem tokens_eq (c : Cursor) :
    tokens source c = runOf source (tokensFrom 0 (ahead source c) c.pos) := by
  induction hn : source.length - c.offset using Nat.strongRecOn generalizing c with
  | _ n ih =>
    subst hn
    obtain ⟨_, hstop, hskip⟩ := skipTrivia_spec source c
    rw [hskip]
    rcases nextToken_eq source c with ⟨hend, h⟩ | ⟨hend, h⟩
    · rw [tokens_of_step h, tokensFrom_atEnd hend]
      rfl
    · rw [tokensFrom_scan hstop hend]
      cases hl : scan (ahead source (skipTrivia source c)) with
      | error fault =>
        have hstray := nextToken_eq_error_iff.mpr ⟨scan_eq_error_iff.mp hl, rfl⟩
        exact tokens_of_stray hstray
      | ok l =>
        rw [hl] at h
        have hk : (l.toToken (skipTrivia source c).pos).kind ≠ .eof := (scanned_of_scan hl).ne_eof
        obtain ⟨hin, hmoves⟩ := nextToken_moves h hk
        rw [tokens_of_step h, if_neg hk, ih _ (by omega) _ rfl, ← tokensFrom_advance]
        simp only
        cases tokensFrom l.width (ahead source (skipTrivia source c)) (skipTrivia source c).pos with
        | error fault => rfl
        | ok more => rfl

/-- The cursor reads the tokens of the text. -/
theorem tokenize_eq (source : Bytes) : tokenize source = runOf source (Token.tokenize source) := by
  have hopening : opening source = advance source (interpreterLineWidth source) ⟨0, Pos.start⟩ := by
    rw [opening, interpreterLineWidth, skipLine_eq]
    split
    · rfl
    · rfl
  rw [tokenize, tokens_eq, hopening, ← tokensFrom_advance]
  rfl

/-! ## Where reading fails -/

/-- The cursors from which a run looks for tokens. -/
inductive Reached (source : Bytes) : Cursor → Prop
  | opening : Reached source (opening source)
  | step {c stop : Cursor} {t : Token} (h : Reached source c)
      (hstep : nextToken source c = .ok (t, stop)) (hk : t.kind ≠ .eof) : Reached source stop

theorem Reached.tokenize_eq_error (h : Reached source c)
    (hc : tokens source c = .error stray) : tokenize source = .error stray := by
  induction h with
  | opening => exact hc
  | step _ hstep hk ih =>
    refine ih ?_
    rw [tokens_of_step hstep, if_neg hk, hc]
    rfl

theorem exists_reached_error (h : Reached source c)
    (hc : tokens source c = .error stray) :
    ∃ c', Reached source c' ∧ nextToken source c' = .error stray := by
  induction hn : source.length - c.offset using Nat.strongRecOn generalizing c with
  | _ n ih =>
    subst hn
    cases hstep : nextToken source c with
    | error other =>
      cases (tokens_of_stray hstep).symm.trans hc
      exact ⟨c, h, hstep⟩
    | ok found =>
      obtain ⟨t, stop⟩ := found
      rw [tokens_of_step hstep] at hc
      by_cases hk : t.kind = .eof
      · rw [if_pos hk] at hc
        cases hc
      · obtain ⟨hin, hmoves⟩ := nextToken_moves hstep hk
        rw [if_neg hk] at hc
        have hmore : tokens source stop = .error stray := by
          cases hm : tokens source stop with
          | error other =>
            rw [hm] at hc
            exact hc
          | ok more =>
            rw [hm] at hc
            cases hc
        exact ih _ (by omega) (h.step hstep hk) hmore rfl

theorem tokenize_eq_error_iff (source : Bytes) :
    Token.tokenize source = .error .cutByteLiteral ↔ ∃ stray, tokenize source = .error stray := by
  rw [tokenize_eq]
  cases Token.tokenize source with
  | error fault => exact iff_of_true rfl ⟨_, rfl⟩
  | ok tokens => simp [runOf]

/-- Reading a source gives its tokens, the last one and only that being the end; every step
before it moves on; and every cut is a part of the source, unless a byte literal starts
three bytes before the end and consists of an open escape. -/
theorem reading_stays_in_source (source : Bytes) :
    tokenize source = runOf source (Token.tokenize source) ∧
      (∀ c t stop, nextToken source c = .ok (t, stop) → t.kind ≠ .eof → c.offset < stop.offset) ∧
      (∀ tokens, Token.tokenize source = .ok tokens →
        ∃ scanned last, tokens = scanned ++ [endToken last] ∧ ∀ t ∈ scanned, t.kind ≠ .eof) ∧
      (Token.tokenize source = .error .cutByteLiteral ↔
        ∃ c, Reached source c ∧ (skipTrivia source c).offset + 3 = source.length ∧
          ahead source (skipTrivia source c) = Bytes.ofString "b'\\") := by
  refine ⟨tokenize_eq source, fun c t stop h hk => (nextToken_moves h hk).2,
    fun tokens h => tokenize_eof h, ?_⟩
  rw [tokenize_eq_error_iff]
  constructor
  · rintro ⟨stray, h⟩
    obtain ⟨c, hc, hstep⟩ := exists_reached_error Reached.opening h
    have htext := (nextToken_eq_error_iff.mp hstep).1
    have hlength := @ahead_length source (skipTrivia source c)
    rw [htext] at hlength
    have hthree : (Bytes.ofString "b'\\").length = 3 := rfl
    exact ⟨c, hc, by omega, htext⟩
  · rintro ⟨c, hc, _, htext⟩
    have hstray := tokens_of_stray (nextToken_eq_error_iff.mpr ⟨htext, rfl⟩)
    exact ⟨_, hc.tokenize_eq_error hstray⟩

theorem reading_stays_in_source_cut :
    tokenize (Bytes.ofString "x b'\\") = .error ⟨2, 6⟩ :=
  (reading_stays_in_source _).1.trans rfl

end RustLua.Token.Cursor
