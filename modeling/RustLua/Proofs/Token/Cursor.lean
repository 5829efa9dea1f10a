import RustLua.Proofs.Token.Coverage

/-! # Reading with a cursor

The same tokens, read by walking over the source: a cursor moves byte by byte, looks a few
bytes ahead, and every text it takes is cut out of the source between two offsets. A cursor
may step behind the end, where it sees NULs; a cut may not reach there (`Stray`). -/
namespace RustLua.Token

/-- Where reading stands: an offset, which may lie behind the end, and its position. -/
structure Cursor where
  offset : Nat
  pos : Pos

/-- A cut that is not a part of the source. -/
structure Stray where
  start : Nat
  stop : Nat
deriving DecidableEq, Repr

/-- What a literal stands for, without its width. -/
abbrev Outcome := Except LiteralError Bytes

def Reading.outcome : Reading → Outcome
  | .value bytes _ => .ok bytes
  | .fault error _ => .error error

namespace Cursor

variable (source : Bytes)

/-! ## Moving and looking -/

/-- The byte at an offset. Only bytes of the source are looked up. -/
def byteAt (i : Nat) : UInt8 := if h : i < source.length then source.get ⟨i, h⟩ else 0

/-- The bytes between two offsets of the source. -/
def cut (start stop : Nat) : Except Stray Bytes :=
  if start ≤ stop ∧ stop ≤ source.length then .ok (slice source start stop)
  else .error ⟨start, stop⟩

variable (c : Cursor)

def byte : UInt8 := byteAt source c.offset

def peek (n : Nat) : UInt8 := byteAt source (c.offset + n)

def next : Cursor := ⟨c.offset + 1, c.pos.after (byte source c)⟩

def advance : Nat → Cursor → Cursor
  | 0, c => c
  | n + 1, c => advance n (next source c)

/-- What lies ahead of a cursor. -/
def ahead : Bytes := source.drop c.offset

variable {source c}

theorem byteAt_eq_getD (i : Nat) : byteAt source i = source.getD i 0 := by
  unfold byteAt
  split
  · rename_i h
    rw [List.getD_eq_getElem _ _ h]
    rfl
  · rename_i h
    rw [List.getD_eq_default _ _ (Nat.le_of_not_lt h)]

theorem peek_eq (n : Nat) : peek source c n = (ahead source c).getD n 0 := by
  rw [peek, byteAt_eq_getD, ahead, List.getD_eq_getElem?_getD, List.getD_eq_getElem?_getD,
    List.getElem?_drop]

theorem byte_eq : byte source c = (ahead source c).headD 0 := by
  rw [headD_eq_getD, ← peek_eq]
  rfl

theorem offset_lt_of_byte (h : byte source c ≠ 0) : c.offset < source.length := by
  refine Nat.lt_of_not_le fun hle => h ?_
  rw [byte_eq, ahead, List.drop_eq_nil_of_le hle]
  rfl

theorem ahead_length : (ahead source c).length = source.length - c.offset := List.length_drop

theorem advance_offset (n : Nat) (c : Cursor) : (advance source n c).offset = c.offset + n := by
  induction n generalizing c with
  | zero => rfl
  | succ n ih =>
    rw [advance, ih]
    exact Nat.succ_add_eq_add_succ c.offset n

theorem advance_add (m n : Nat) (c : Cursor) :
    advance source n (advance source m c) = advance source (m + n) c := by
  induction m generalizing c with
  | zero => rw [Nat.zero_add]; rfl
  | succ m ih => rw [Nat.succ_add, advance, advance, ih]

theorem ahead_advance (n : Nat) (c : Cursor) :
    ahead source (advance source n c) = (ahead source c).drop n := by
  rw [ahead, advance_offset, ahead, List.drop_drop]

theorem byte_advance (n : Nat) (c : Cursor) :
    byte source (advance source n c) = (ahead source c).getD n 0 := by
  rw [byte, advance_offset, ← peek_eq]
  rfl

theorem next_eq_advance (c : Cursor) : next source c = advance source 1 c := rfl

/-- What is cut out in front of a cursor that has moved on inside the source. -/
theorem cut_advance {n : Nat} (h : n ≤ (ahead source c).length) (hc : c.offset ≤ source.length) :
    cut source c.offset (advance source n c).offset = .ok ((ahead source c).take n) := by
  rw [ahead_length] at h
  rw [cut, advance_offset, if_pos (by omega), slice, Nat.add_sub_cancel_left]
  rfl

theorem cut_to_end (h : c.offset ≤ source.length) :
    cut source c.offset source.length = .ok (ahead source c) := by
  rw [cut, if_pos ⟨h, Nat.le_refl _⟩, slice, ← ahead_length]
  exact congrArg Except.ok List.take_length

/-- What follows a step that succeeds. -/
theorem ok_bind {α β : Type} (a : α) (f : α → Except Stray β) : (Except.ok a >>= f) = f a := rfl

/-! ## Runs of bytes, layout and comments -/

variable (source)

/-- Move over a run of bytes. No NUL belongs to it, so it ends inside the source. -/
def skipWhile (p : UInt8 → Bool) (hp : p 0 = false) (c : Cursor) : Cursor :=
  if p (byte source c) = true then skipWhile p hp (next source c) else c
termination_by source.length - c.offset
decreasing_by
  have hlt : c.offset < source.length := offset_lt_of_byte fun h0 => by simp_all
  exact Nat.sub_succ_lt_self _ _ hlt

/-- Move over what is left of a block comment inside `depth` comments. -/
def skipBlock (depth : Nat) (c : Cursor) : Cursor :=
  if byte source c = 0 then c
  else if byte source c = Ascii.slash ∧ peek source c 1 = Ascii.star then
    skipBlock (depth + 1) (advance source 2 c)
  else if byte source c = Ascii.star ∧ peek source c 1 = Ascii.slash then
    if depth ≤ 1 then advance source 2 c else skipBlock (depth - 1) (advance source 2 c)
  else skipBlock depth (next source c)
termination_by source.length - c.offset
decreasing_by
  all_goals
    have hlt : c.offset < source.length := offset_lt_of_byte ‹_›
    simp only [next_eq_advance, advance_offset]
    omega

/-- Move to the end of the line. -/
def skipLine (c : Cursor) : Cursor :=
  skipWhile source (fun b => b != Ascii.newline && b != Ascii.nul) (by decide) c

variable {source}

theorem skipWhile_eq {p : UInt8 → Bool} {hp : p 0 = false} (c : Cursor) :
    skipWhile source p hp c = advance source ((ahead source c).takeWhile p).length c := by
  induction htext : ahead source c generalizing c with
  | nil =>
    rw [skipWhile, byte_eq, htext, if_neg (by simp [hp])]
    rfl
  | cons b rest ih =>
    have hnext : ahead source (next source c) = rest := by
      rw [next_eq_advance, ahead_advance, htext]
      rfl
    rw [skipWhile, byte_eq, htext, List.headD_cons, List.takeWhile_cons]
    split
    · exact ih (next source c) hnext
    · rfl

theorem skipLine_eq (c : Cursor) :
    skipLine source c = advance source (lineCommentWidth (ahead source c)) c :=
  skipWhile_eq c

/-- A cursor that shows a byte other than NUL has it ahead. -/
theorem ahead_eq_cons {b : UInt8} (h : byte source c = b) (hb : b ≠ 0) :
    ∃ rest, ahead source c = b :: rest :=
  eq_cons_of_headD (byte_eq.symm.trans h) hb

theorem ahead_eq_cons_cons {a b : UInt8} (h : byte source c = a) (hnext : peek source c 1 = b)
    (ha : a ≠ 0) (hb : b ≠ 0) : ∃ rest, ahead source c = a :: b :: rest := by
  obtain ⟨rest, hrest⟩ := ahead_eq_cons h ha
  rw [peek_eq, hrest, List.getD_cons_succ, ← headD_eq_getD] at hnext
  obtain ⟨more, rfl⟩ := eq_cons_of_headD hnext hb
  exact ⟨more, hrest⟩

theorem skipBlock_eq (depth : Nat) (c : Cursor) :
    skipBlock source depth c = advance source (blockCommentWidth depth (ahead source c)) c := by
  fun_induction skipBlock source depth c with
  | case1 depth c h =>
    rw [byte_eq] at h
    rw [blockCommentWidth_end h]
    rfl
  | case2 depth c h hmark ih =>
    obtain ⟨rest, hrest⟩ := ahead_eq_cons_cons hmark.1 hmark.2 (by decide) (by decide)
    rw [ih, advance_add, ahead_advance, hrest, blockCommentWidth_open]
    rfl
  | case3 depth c h _ hmark hone =>
    obtain ⟨rest, hrest⟩ := ahead_eq_cons_cons hmark.1 hmark.2 (by decide) (by decide)
    rw [hrest, blockCommentWidth_close, if_pos hone]
  | case4 depth c h _ hmark hmore ih =>
    obtain ⟨rest, hrest⟩ := ahead_eq_cons_cons hmark.1 hmark.2 (by decide) (by decide)
    rw [ih, advance_add, ahead_advance, hrest, blockCommentWidth_close, if_neg hmore]
    rfl
  | case5 depth c h hopen hclose ih =>
    obtain ⟨rest, hrest⟩ := ahead_eq_cons (rfl : byte source c = _) h
    rw [peek_eq, hrest, List.getD_cons_succ, ← headD_eq_getD] at hopen hclose
    rw [ih, next_eq_advance, advance_add, ahead_advance, hrest,
      blockCommentWidth_byte h (not_or.mpr ⟨hopen, hclose⟩)]
    rfl

variable (source)

/-- Move over layout and comments. -/
def skipTrivia (c : Cursor) : Cursor :=
  if Ascii.isLayout (byte source c) then skipTrivia (next source c)
  else if byte source c = Ascii.slash ∧ peek source c 1 = Ascii.slash then
    skipTrivia (skipLine source c)
  else if byte source c = Ascii.slash ∧ peek source c 1 = Ascii.star then
    skipTrivia (skipBlock source 0 c)
  else c
termination_by source.length - c.offset
decreasing_by
  · rename_i h
    have hlt : c.offset < source.length := offset_lt_of_byte fun h0 => by
      rw [h0] at h
      cases h
    exact Nat.sub_succ_lt_self _ _ hlt
  · rename_i h
    obtain ⟨rest, hrest⟩ := ahead_eq_cons h.1 (by decide)
    have hlt : c.offset < source.length := offset_lt_of_byte (by rw [h.1]; decide)
    rw [skipLine_eq, advance_offset, hrest]
    exact Nat.sub_lt_sub_left hlt (Nat.lt_add_of_pos_right (Nat.succ_pos _))
  · rename_i h
    obtain ⟨rest, hrest⟩ := ahead_eq_cons_cons h.1 h.2 (by decide) (by decide)
    have hlt : c.offset < source.length := offset_lt_of_byte (by rw [h.1]; decide)
    rw [skipBlock_eq, advance_offset, hrest, blockCommentWidth_open]
    omega

variable {source}

/-- Layout is passed piece by piece. -/
theorem skipTrivia_eq (c : Cursor) :
    skipTrivia source c =
      if triviaWidth (ahead source c) = 0 then c
      else skipTrivia source (advance source (triviaWidth (ahead source c)) c) := by
  have hline : skipLine source c = _ := skipLine_eq c
  have hblock : skipBlock source 0 c = _ := skipBlock_eq 0 c
  rw [skipTrivia, byte_eq, peek_eq]
  cases htext : ahead source c with
  | nil => rfl
  | cons b rest =>
    rw [htext] at hline hblock
    rw [List.headD_cons, List.getD_cons_succ, ← headD_eq_getD, triviaWidth]
    by_cases hb : Ascii.isLayout b = true
    · rw [if_pos hb, if_pos hb, if_neg Nat.one_ne_zero]
      rfl
    rw [if_neg hb, if_neg hb]
    by_cases hl : b = Ascii.slash ∧ rest.headD 0 = Ascii.slash
    · have hpos : lineCommentWidth (b :: rest) ≠ 0 := by
        rw [hl.1]
        exact Nat.succ_ne_zero _
      rw [if_pos hl, if_pos hl, if_neg hpos, hline]
    rw [if_neg hl, if_neg hl]
    by_cases hm : b = Ascii.slash ∧ rest.headD 0 = Ascii.star
    · have hpos : blockCommentWidth 0 (b :: rest) ≠ 0 := by
        obtain ⟨inner, rfl⟩ := eq_cons_of_headD hm.2 (by decide)
        rw [hm.1, blockCommentWidth_open]
        omega
      rw [if_pos hm, if_pos hm, if_neg hpos, hblock]
    · rw [if_neg hm, if_neg hm, if_pos rfl]

theorem tokensFrom_advance (n : Nat) (c : Cursor) :
    tokensFrom n (ahead source c) c.pos =
      tokensFrom 0 (ahead source (advance source n c)) (advance source n c).pos := by
  induction n generalizing c with
  | zero => rfl
  | succ n ih =>
    have hstep := ih (next source c)
    rw [next_eq_advance, ahead_advance] at hstep
    refine Eq.trans ?_ hstep
    have hpos : (advance source 1 c).pos = c.pos.after ((ahead source c).headD 0) := by
      rw [← byte_eq]
      rfl
    rw [hpos]
    cases ahead source c with
    | nil => simp [tokensFrom, Pos.right, Pos.after, Ascii.newline, Nat.add_assoc, Nat.add_comm 1]
    | cons b rest => rfl

/-- Behind layout the same tokens follow. -/
theorem skipTrivia_spec (source : Bytes) (c : Cursor) :
    c.offset ≤ (skipTrivia source c).offset ∧ triviaWidth (ahead source (skipTrivia source c)) = 0 ∧
      tokensFrom 0 (ahead source c) c.pos =
        tokensFrom 0 (ahead source (skipTrivia source c)) (skipTrivia source c).pos := by
  induction hn : (ahead source c).length using Nat.strongRecOn generalizing c with
  | _ n ih =>
    subst hn
    rw [skipTrivia_eq]
    split
    · rename_i hzero
      exact ⟨Nat.le_refl _, hzero, rfl⟩
    · rename_i hpos
      have hshort : (ahead source (advance source (triviaWidth (ahead source c)) c)).length <
          (ahead source c).length := by
        have hne : 0 < (ahead source c).length := by
          refine List.length_pos_iff.mpr fun hnil => hpos ?_
          rw [hnil]
          rfl
        rw [ahead_advance, List.length_drop]
        omega
      obtain ⟨hle, hstop, htokens⟩ := ih _ hshort _ rfl
      rw [advance_offset] at hle
      refine ⟨by omega, hstop, ?_⟩
      rw [tokensFrom_triviaWidth hpos, tokensFrom_advance, htokens]

end Cursor
end RustLua.Token
