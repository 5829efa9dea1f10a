import Mathlib.Data.List.Chain
import RustLua.Proofs.Bytes.Utf8
import RustLua.Unicode.Normal

/-! # Boundaries of composition

Stray bytes and ASCII characters are boundaries: what stands before one is composed as if the
text ended there. A stray byte, and a character that begins no composition, such as a percent
sign, also cuts off what stands behind it. -/
namespace RustLua.Unicode

open Utf8 (Chunk)

/-- Chunks taken apart and put in order, before they are composed again. -/
def ordered (chunks : List Chunk) : List Chunk :=
  orderMarks ((limitMarks 0 chunks).flatMap decomposeChunk)

/-- The composed form of a sequence of chunks. -/
def normalized (chunks : List Chunk) : List Chunk := composeFrom none [] (ordered chunks)

theorem nfc_eq (text : Bytes) : nfc text = (normalized (wholeChunks 0 text)).flatMap Chunk.bytes :=
  rfl

/-! ## Boundaries -/

/-- A chunk that is no mark, does not change and joins nothing in front of it. -/
structure Boundary (q : Chunk) : Prop where
  marks : markCount q = (0, 0)
  parts : decomposeChunk q = [q]
  starts : chunkClass q = 0
  behind : ∀ a, composeChunks? a q = none

theorem boundary_stray (b : UInt8) : Boundary (.stray b) where
  marks := rfl
  parts := rfl
  starts := rfl
  behind a := by cases a <;> rfl

theorem boundary_ascii {c : Char} (h : c.toNat < 0x80) : Boundary (.char c) where
  marks := by simp [markCount, h]
  parts := by
    have hc : c.toNat < 0xC0 := by omega
    simp [decomposeChunk, decompose, decomposeOnce?, hc]
  starts := by
    have hc : c.toNat < 0x300 := by omega
    simp [chunkClass, hc]
  behind a := by
    have hc : c.toNat < 0x300 := by omega
    cases a <;> simp [composeChunks?, compose?, hc]

section
variable {q : Chunk} {xs ys : List Chunk}

theorem markCount_le (chunk : Chunk) :
    (markCount chunk).1 ≤ maxMarks ∧ (markCount chunk).2 ≤ maxMarks := by
  have hrows : ∀ row ∈ markRuns, row.1.1 ≤ maxMarks ∧ row.1.2 ≤ maxMarks := by
    decide +kernel
  cases chunk with
  | stray => exact ⟨Nat.zero_le _, Nat.zero_le _⟩
  | char c =>
    rw [markCount]
    split
    · exact ⟨Nat.zero_le _, Nat.zero_le _⟩
    split
    · refine ⟨Nat.zero_le _, ?_⟩
      simp only [syllableLetters]
      split <;> simp [maxMarks]
    split
    next heq => exact hrows _ (List.mem_of_find?_eq_some heq)
    next => split <;> decide

/-- So few marks are counted that a boundary is never one too many. -/
theorem limitMarks_append (hq : Boundary q) {count : Nat} (h : count ≤ maxMarks) :
    limitMarks count (xs ++ q :: ys) = limitMarks count xs ++ q :: limitMarks 0 ys := by
  induction xs generalizing count with
  | nil => simp [limitMarks, hq.marks, Nat.not_lt.mpr h]
  | cons c xs ih =>
    obtain ⟨hfirst, hlast⟩ := markCount_le c
    simp only [List.cons_append, limitMarks]
    split
    · rw [ih hfirst]; rfl
    next hcount =>
      rw [ih (by split <;> omega)]; rfl

theorem insertMark_append (hq : Boundary q) (c : Chunk) (marks before : List Chunk) :
    insertMark c (marks ++ q :: before) = insertMark c marks ++ q :: before := by
  induction marks with
  | nil => simp [insertMark, hq.starts]
  | cons m marks ih =>
    rw [List.cons_append, insertMark, insertMark, ih]
    split <;> rfl

theorem orderMarks_append (hq : Boundary q) :
    orderMarks (xs ++ q :: ys) = orderMarks xs ++ q :: orderMarks ys := by
  have hfold : ∀ marks before : List Chunk,
      ys.foldl (fun acc c => insertMark c acc) (marks ++ q :: before) =
        ys.foldl (fun acc c => insertMark c acc) marks ++ q :: before := by
    induction ys with
    | nil => intro _ _; rfl
    | cons c ys ih =>
      intro marks before
      rw [List.foldl_cons, insertMark_append hq, ih, List.foldl_cons]
  have hinsert : ∀ before, insertMark q before = [] ++ q :: before := by
    intro before
    cases before <;> simp [insertMark, hq.starts]
  rw [orderMarks, List.foldl_append, List.foldl_cons, hinsert, hfold]
  simp [orderMarks]

theorem ordered_append (hq : Boundary q) :
    ordered (xs ++ q :: ys) = ordered xs ++ q :: ordered ys := by
  rw [ordered, limitMarks_append hq (Nat.zero_le _), List.flatMap_append, List.flatMap_cons,
    hq.parts, List.singleton_append, orderMarks_append hq]
  rfl

/-- What a chunk and the last starter compose to, if it joins it over the marks between. -/
def joined? (starter : Option Chunk) (marks : List Chunk) (c : Chunk) : Option Chunk :=
  if marks.head?.all (chunkClass · < chunkClass c) then starter.bind (composeChunks? · c) else none

theorem composeFrom_cons (starter : Option Chunk) (marks : List Chunk) (c : Chunk) :
    composeFrom starter marks (c :: xs) =
      match joined? starter marks c with
      | some composed => composeFrom (some composed) marks xs
      | none =>
        if chunkClass c = 0 then starter.toList ++ marks.reverse ++ composeFrom (some c) [] xs
        else composeFrom starter (c :: marks) xs := by
  cases marks <;> rfl

theorem joined?_eq_none {starter : Option Chunk} {marks : List Chunk} {c : Chunk}
    (h : ∀ a ∈ starter, composeChunks? a c = none) : joined? starter marks c = none := by
  have hbind : starter.bind (composeChunks? · c) = none := Option.bind_eq_none_iff.mpr h
  rw [joined?, hbind, ite_self]

theorem composeFrom_append (hq : Boundary q) (starter : Option Chunk) (marks : List Chunk) :
    composeFrom starter marks (xs ++ q :: ys) =
      composeFrom starter marks xs ++ composeFrom (some q) [] ys := by
  induction xs generalizing starter marks with
  | nil =>
    rw [List.nil_append, composeFrom_cons, joined?_eq_none fun a _ => hq.behind a]
    simp only [hq.starts, if_true]
    rfl
  | cons c xs ih =>
    rw [List.cons_append, composeFrom_cons, composeFrom_cons]
    simp only [ih]
    split
    · rfl
    · split
      · simp only [List.append_assoc]
      · rfl

/-- What stands before a boundary is composed for itself. -/
theorem normalized_append (hq : Boundary q) :
    normalized (xs ++ q :: ys) = normalized xs ++ normalized (q :: ys) := by
  have hhead : ordered ([] ++ q :: ys) = ordered [] ++ q :: ordered ys := ordered_append hq
  rw [normalized, ordered_append hq, composeFrom_append hq, normalized, normalized,
    ← List.nil_append (q :: ys), hhead, composeFrom_append hq]
  rfl

/-- A text of boundaries is composed already, whatever stands before it. -/
theorem normalized_append_boundaries (h : ∀ q ∈ ys, Boundary q) :
    normalized (xs ++ ys) = normalized xs ++ ys := by
  induction ys generalizing xs with
  | nil => simp
  | cons q ys ih =>
    obtain ⟨hq, hys⟩ := List.forall_mem_cons.mp h
    have hone : normalized [q] = [q] := by
      have hordered : ordered ([] ++ [q]) = ordered [] ++ [q] := ordered_append hq
      rw [normalized, ← List.nil_append [q], hordered, composeFrom_append hq]
      rfl
    calc normalized (xs ++ q :: ys) = normalized xs ++ normalized ([q] ++ ys) :=
          normalized_append hq
      _ = normalized xs ++ q :: ys := by rw [ih hys, hone, List.singleton_append]

/-! ## Boundaries on both sides -/

/-- A boundary that joins nothing behind it either. -/
structure Wall (p : Chunk) : Prop extends Boundary p where
  ahead : ∀ b, composeChunks? p b = none

theorem wall_stray (b : UInt8) : Wall (.stray b) where
  toBoundary := boundary_stray b
  ahead _ := rfl

theorem composeFrom_wall {p : Chunk} (hp : Wall p) (marks : List Chunk) :
    composeFrom (some p) marks xs = p :: composeFrom none marks xs := by
  induction xs generalizing marks with
  | nil => rfl
  | cons c xs ih =>
    rw [composeFrom_cons, composeFrom_cons, joined?_eq_none (by simp [hp.ahead]),
      joined?_eq_none (by simp)]
    simp only [ih]
    split <;> rfl

theorem normalized_wall {p : Chunk} (hp : Wall p) :
    normalized (xs ++ p :: ys) = normalized xs ++ p :: normalized ys := by
  rw [normalized, ordered_append hp.toBoundary, composeFrom_append hp.toBoundary,
    composeFrom_wall hp]
  rfl

/-! ## What composition can give -/

theorem mem_limitMarks {c : Chunk} {count : Nat} (h : c ∈ limitMarks count xs) :
    c = joiner ∨ c ∈ xs := by
  induction xs generalizing count with
  | nil => cases h
  | cons d xs ih =>
    simp only [limitMarks] at h
    split at h
    · rcases List.mem_cons.mp h with rfl | h
      · exact .inl rfl
      · rcases List.mem_cons.mp h with rfl | h
        · exact .inr List.mem_cons_self
        · exact (ih h).imp_right (List.mem_cons_of_mem d)
    · rcases List.mem_cons.mp h with rfl | h
      · exact .inr List.mem_cons_self
      · exact (ih h).imp_right (List.mem_cons_of_mem d)

theorem mem_insertMark {c d : Chunk} (h : c ∈ insertMark d xs) : c = d ∨ c ∈ xs := by
  induction xs with
  | nil => exact .inl (List.mem_singleton.mp h)
  | cons e xs ih =>
    rw [insertMark] at h
    split at h
    · rcases List.mem_cons.mp h with rfl | h
      · exact .inr List.mem_cons_self
      · exact (ih h).imp_right (List.mem_cons_of_mem e)
    · exact List.mem_cons.mp h

theorem mem_orderMarks {c : Chunk} (h : c ∈ orderMarks xs) : c ∈ xs := by
  have hfold : ∀ before, c ∈ xs.foldl (fun acc d => insertMark d acc) before →
      c ∈ before ∨ c ∈ xs := by
    clear h
    induction xs with
    | nil => exact fun before h => .inl h
    | cons d xs ih =>
      intro before h
      rcases ih (insertMark d before) h with h | h
      · rcases mem_insertMark h with rfl | h
        · exact .inr List.mem_cons_self
        · exact .inl h
      · exact .inr (List.mem_cons_of_mem d h)
  exact (hfold [] (List.mem_reverse.mp h)).resolve_left List.not_mem_nil

theorem forall_mem_composeFrom {P : Chunk → Prop}
    (hP : ∀ a b c, composeChunks? a b = some c → P c) {starter : Option Chunk}
    {marks : List Chunk} (hs : ∀ c ∈ starter, P c) (hm : ∀ c ∈ marks, P c) (hx : ∀ c ∈ xs, P c) :
    ∀ c ∈ composeFrom starter marks xs, P c := by
  have hflush {starter : Option Chunk} {marks : List Chunk} (hs : ∀ c ∈ starter, P c)
      (hm : ∀ c ∈ marks, P c) : ∀ c ∈ starter.toList ++ marks.reverse, P c :=
    List.forall_mem_append.mpr ⟨fun c h => hs c (Option.mem_toList.mp h),
      fun c h => hm c (List.mem_reverse.mp h)⟩
  induction xs generalizing starter marks with
  | nil => exact hflush hs hm
  | cons d xs ih =>
    obtain ⟨hd, hx⟩ := List.forall_mem_cons.mp hx
    rw [composeFrom_cons]
    split
    next composed hj =>
      have hc : P composed := by
        rw [joined?] at hj
        obtain ⟨_, hj⟩ := Option.ite_none_right_eq_some.mp hj
        obtain ⟨a, _, ha⟩ := Option.bind_eq_some_iff.mp hj
        exact hP a d composed ha
      exact ih (by simpa using hc) hm hx
    next =>
      split
      · exact List.forall_mem_append.mpr ⟨hflush hs hm, ih (by simpa using hd) (by simp) hx⟩
      · exact ih hs (List.forall_mem_cons.mpr ⟨hd, hm⟩) hx

/-- What holds of all chunks, and stays true when they are taken apart and when two become
one, holds of the composed form. -/
theorem forall_mem_normalized {P : Chunk → Prop} (hjoiner : P joiner)
    (hparts : ∀ c, P c → ∀ d ∈ decomposeChunk c, P d)
    (hP : ∀ a b c, composeChunks? a b = some c → P c) (hx : ∀ c ∈ xs, P c) :
    ∀ c ∈ normalized xs, P c := by
  refine forall_mem_composeFrom hP (by simp) (by simp) fun c hc => ?_
  obtain ⟨d, hd, hcd⟩ := List.mem_flatMap.mp (mem_orderMarks hc)
  rcases mem_limitMarks hd with rfl | hd
  · exact hparts joiner hjoiner c hcd
  · exact hparts d (hx d hd) c hcd

end

/-! ## Reading chunks -/

/-- Whether a character starts with a byte can be seen in the bytes that it announces. -/
theorem head?_take (b : UInt8) (rest : Bytes) :
    Utf8.head? (b :: rest.take (announced b - 1)) = Utf8.head? (b :: rest) := by
  by_cases h1 : b < 0x80
  · simp only [Utf8.head?, if_pos h1]
  by_cases h2 : 0xC2 ≤ b ∧ b ≤ 0xDF
  · simp only [Utf8.head?, announced, if_neg h1, if_pos h2]
    rcases rest with - | ⟨x, rest⟩ <;> rfl
  by_cases h3 : 0xE0 ≤ b ∧ b ≤ 0xEF
  · simp only [Utf8.head?, announced, if_neg h1, if_neg h2, if_pos h3]
    rcases rest with - | ⟨x, - | ⟨y, rest⟩⟩ <;> rfl
  by_cases h4 : 0xF0 ≤ b ∧ b ≤ 0xF4
  · have h4' : 0xF0 ≤ b ∧ b ≤ 0xF7 := ⟨h4.1, UInt8.le_trans h4.2 (by decide)⟩
    simp only [Utf8.head?, announced, if_neg h1, if_neg h2, if_neg h3, if_pos h4, if_pos h4']
    rcases rest with - | ⟨x, - | ⟨y, - | ⟨z, rest⟩⟩⟩ <;> rfl
  · simp only [Utf8.head?, if_neg h1, if_neg h2, if_neg h3, if_neg h4]

theorem announced_ascii {b : UInt8} (h : b < 0x80) : announced b = 1 := by
  have hlow {k : UInt8} (hk : ¬ k < 0x80) (hb : k ≤ b) : False := hk (UInt8.lt_of_le_of_lt hb h)
  rw [announced, if_neg fun hb => hlow (by decide) hb.1, if_neg fun hb => hlow (by decide) hb.1,
    if_neg fun hb => hlow (by decide) hb.1]

/-- A character has the announced width. Either it is its first byte, which is ASCII, or there
are others, which are not. -/
theorem of_head?_eq_some {b : UInt8} {rest : Bytes} {c : Char} {n : Nat}
    (h : Utf8.head? (b :: rest) = some (c, n)) :
    n = announced b ∧ (∀ x ∈ rest.take (n - 1), 0x80 ≤ x) ∧
      (b < 0x80 ∧ c = Char.ofNat b.toNat ∨ ¬ b < 0x80 ∧ rest.take (n - 1) ≠ []) := by
  have hcont {x : UInt8} (hx : Utf8.isContinuation x = true) : 0x80 ≤ x := by
    rw [Utf8.isContinuation, Bool.and_eq_true] at hx
    exact of_decide_eq_true hx.1
  have hsecond {x : UInt8} (hx : Utf8.isSecond b x = true) : 0x80 ≤ x := by
    simp only [Utf8.isSecond, Bool.and_eq_true] at hx
    exact hcont hx.1.1.1.1
  by_cases h1 : b < 0x80
  · simp only [Utf8.head?, if_pos h1, Option.some.injEq, Prod.mk.injEq] at h
    obtain ⟨hc, rfl⟩ := h
    exact ⟨(announced_ascii h1).symm, by simp, .inl ⟨h1, hc.symm⟩⟩
  by_cases h2 : 0xC2 ≤ b ∧ b ≤ 0xDF
  · simp only [Utf8.head?, announced, if_neg h1, if_pos h2] at h ⊢
    rcases rest with - | ⟨x, rest⟩
    · cases h
    obtain ⟨hx, h⟩ := Option.ite_none_right_eq_some.mp h
    cases h
    exact ⟨rfl, by simpa using hcont hx, .inr ⟨h1, by simp⟩⟩
  by_cases h3 : 0xE0 ≤ b ∧ b ≤ 0xEF
  · simp only [Utf8.head?, announced, if_neg h1, if_neg h2, if_pos h3] at h ⊢
    rcases rest with - | ⟨x, - | ⟨y, rest⟩⟩
    · cases h
    · cases h
    obtain ⟨hx, h⟩ := Option.ite_none_right_eq_some.mp h
    rw [Bool.and_eq_true] at hx
    cases h
    exact ⟨rfl, by simpa using ⟨hsecond hx.1, hcont hx.2⟩, .inr ⟨h1, by simp⟩⟩
  by_cases h4 : 0xF0 ≤ b ∧ b ≤ 0xF4
  · have h4' : 0xF0 ≤ b ∧ b ≤ 0xF7 := ⟨h4.1, UInt8.le_trans h4.2 (by decide)⟩
    simp only [Utf8.head?, announced, if_neg h1, if_neg h2, if_neg h3, if_pos h4, if_pos h4'] at h ⊢
    rcases rest with - | ⟨x, - | ⟨y, - | ⟨z, rest⟩⟩⟩
    · cases h
    · cases h
    · cases h
    obtain ⟨hx, h⟩ := Option.ite_none_right_eq_some.mp h
    rw [Bool.and_eq_true, Bool.and_eq_true] at hx
    cases h
    exact ⟨rfl, by simpa using ⟨hsecond hx.1.1, hcont hx.1.2, hcont hx.2⟩, .inr ⟨h1, by simp⟩⟩
  · simp only [Utf8.head?, if_neg h1, if_neg h2, if_neg h3, if_neg h4] at h
    cases h

theorem wholeChunks_skip (skip : Nat) (text : Bytes) :
    wholeChunks skip text = wholeChunks 0 (text.drop skip) := by
  induction text generalizing skip with
  | nil => cases skip <;> rfl
  | cons b rest ih =>
    cases skip with
    | zero => rfl
    | succ skip => exact ih skip

theorem wholeChunks_bytes (text : Bytes) : (wholeChunks 0 text).flatMap Chunk.bytes = text := by
  suffices ∀ skip, (wholeChunks skip text).flatMap Chunk.bytes = text.drop skip from this 0
  induction text with
  | nil => simp [wholeChunks]
  | cons b rest ih =>
    intro skip
    cases skip with
    | succ skip => exact ih skip
    | zero =>
      rw [wholeChunks]
      split
      · simp [List.flatMap_map, Chunk.bytes]
      split
      next c n hh =>
        obtain ⟨hpos, hsplit⟩ := Utf8.encode_of_head? hh
        obtain ⟨n, rfl⟩ := Nat.exists_eq_add_one.mpr hpos
        rw [List.flatMap_cons, ih]
        exact hsplit.symm
      next => rw [List.flatMap_cons, ih]; rfl

/-- Where no two bytes beyond ASCII are neighbours, all that is read is a boundary. -/
theorem boundary_of_mem_wholeChunks {text : Bytes}
    (h : text.IsChain fun a b => a < 0x80 ∨ b < 0x80) : ∀ q ∈ wholeChunks 0 text, Boundary q := by
  induction text with
  | nil => simp [wholeChunks]
  | cons b rest ih =>
    have hrest := ih h.tail
    rw [wholeChunks]
    split
    · intro q hq
      obtain ⟨x, -, rfl⟩ := List.mem_map.mp hq
      exact boundary_stray x
    split
    next c n hh =>
      obtain ⟨rfl, hhigh, ⟨hb, rfl⟩ | ⟨hb, hne⟩⟩ := of_head?_eq_some hh
      · have hlow : b.toNat < 0x80 := UInt8.lt_iff_toNat_lt.mp hb
        have hc : (Char.ofNat b.toNat).toNat < 0x80 := by
          rwa [Utf8.toNat_ofNat (.inl (by omega))]
        rw [announced_ascii hb]
        exact List.forall_mem_cons.mpr ⟨boundary_ascii hc, hrest⟩
      · rcases rest with - | ⟨y, rest⟩
        · simp at hne
        have hy : y ∈ (y :: rest).take (announced b - 1) := by
          cases hn : announced b - 1 with
          | zero => simp [hn] at hne
          | succ => simp
        have hlow := (List.isChain_cons_cons.mp h).1.resolve_left hb
        exact absurd hlow (UInt8.not_lt.mpr (hhigh y hy))
    next => exact List.forall_mem_cons.mpr ⟨boundary_stray b, hrest⟩

end RustLua.Unicode
