import RustLua.Lua.Text
import RustLua.Proofs.Unicode.Boundaries

/-! # Percent signs and composition

Nothing composes with a percent sign and nothing composes to one. So a text may be composed
before its percent signs are doubled or after, also where it is no well-formed UTF-8. -/
namespace RustLua.Lua

open Utf8 (Chunk)
open Unicode

/-! ## The sign as a chunk -/

theorem ofNat_eq_percent {n : Nat} (h : Char.ofNat n = '%') : n = 37 := by
  by_cases hn : n < 0xD800 ∨ 0xDFFF < n ∧ n < 0x110000
  · rw [← Utf8.toNat_ofNat hn, h]
    rfl
  · rw [Char.ofNat, dif_neg hn] at h
    exact absurd h (by decide)

theorem not_mem_decompositionTable : ∀ row ∈ decompositionTable,
    row.1 ≠ 37 ∧ row.2.1 ≠ 37 ∧ row.2.2 ≠ 37 := by
  decide +kernel

theorem compose?_ne_percent {a b : Char} : compose? a b ≠ some '%' := by
  intro h
  rw [compose?] at h
  split at h
  · cases h
  split at h
  next c hc =>
    rw [composeSyllable?] at hc
    cases h
    split at hc
    · have := ofNat_eq_percent (Option.some.inj hc)
      simp only [syllableBase] at this
      omega
    · obtain ⟨hs, hc⟩ := Option.ite_none_right_eq_some.mp hc
      have := ofNat_eq_percent (Option.some.inj hc)
      have hbase : syllableBase ≤ a.toNat := by
        have := hs.1
        rw [isSyllable, Bool.and_eq_true] at this
        exact of_decide_eq_true this.1
      rw [syllableBase] at hbase
      omega
  next =>
    obtain ⟨row, hrow, hc⟩ := Option.map_eq_some_iff.mp h
    exact (not_mem_decompositionTable row (List.mem_of_find?_eq_some hrow)).1 (ofNat_eq_percent hc)

theorem compose?_percent (b : Char) : compose? '%' b = none := by
  have hsyllable : composeSyllable? '%' b = none := by
    have hlead : ¬ leadBase ≤ '%'.toNat := by decide
    have hs : isSyllable '%' ≠ true := by decide
    rw [composeSyllable?, if_neg fun h => hlead h.1, if_neg fun h => hs h.1]
  have hfind : (decompositionTable.find? fun row =>
      row.2.1 = '%'.toNat && row.2.2 = b.toNat && composes row) = none := by
    rw [List.find?_eq_none]
    intro row hrow h
    simp only [Bool.and_eq_true, decide_eq_true_eq] at h
    exact (not_mem_decompositionTable row hrow).2.1 h.1.1
  simp only [compose?, hsyllable, hfind, Option.map_none, ite_self]

theorem syllableLetters_ne_percent {c d : Char} (h : d ∈ syllableLetters c) : d ≠ '%' := by
  have hhigh {base k : Nat} (hb : 37 < base) (hd : d = Char.ofNat (base + k)) : d ≠ '%' := by
    intro he
    have := ofNat_eq_percent (hd.symm.trans he)
    omega
  have hlead : 37 < leadBase := by decide
  have hvowel : 37 < vowelBase := by decide
  have htail : 37 < tailBase := by decide
  simp only [syllableLetters] at h
  split at h <;> simp only [List.mem_cons, List.not_mem_nil, or_false] at h
  · rcases h with h | h
    · exact hhigh hlead h
    · exact hhigh hvowel h
  · rcases h with h | h | h
    · exact hhigh hlead h
    · exact hhigh hvowel h
    · exact hhigh htail h

theorem decomposeOnce?_ne_percent {c d : Char} {parts : List Char}
    (h : decomposeOnce? c = some parts) (hd : d ∈ parts) : d ≠ '%' := by
  rw [decomposeOnce?] at h
  split at h
  · cases h
  split at h
  · obtain rfl := Option.some.inj h
    exact syllableLetters_ne_percent hd
  split at h
  next hrow =>
    have hmem := not_mem_decompositionTable _ (List.mem_of_find?_eq_some hrow)
    cases h
    rw [List.mem_singleton.mp hd]
    exact fun he => hmem.2.1 (ofNat_eq_percent he)
  next hrow =>
    have hmem := not_mem_decompositionTable _ (List.mem_of_find?_eq_some hrow)
    cases h
    simp only [List.mem_cons, List.not_mem_nil, or_false] at hd
    rcases hd with rfl | rfl
    · exact fun he => hmem.2.1 (ofNat_eq_percent he)
    · exact fun he => hmem.2.2 (ofNat_eq_percent he)
  next => cases h

theorem decompose_ne_percent {steps : Nat} {c d : Char} (hc : c ≠ '%')
    (hd : d ∈ decompose steps c) : d ≠ '%' := by
  induction steps generalizing c with
  | zero => exact List.mem_singleton.mp hd ▸ hc
  | succ steps ih =>
    rw [decompose] at hd
    split at hd
    next parts hparts =>
      obtain ⟨e, he, hd⟩ := List.mem_flatMap.mp hd
      exact ih (decomposeOnce?_ne_percent hparts he) hd
    next => exact List.mem_singleton.mp hd ▸ hc

/-- Chunks that are no percent sign, neither as a character nor as a stray byte. -/
def Unsigned (c : Chunk) : Prop := Ascii.percent ∉ c.bytes

instance (c : Chunk) : Decidable (Unsigned c) := inferInstanceAs (Decidable (¬ _))

theorem not_mem_encode {c : Char} (h : c ≠ '%') : Ascii.percent ∉ Utf8.encode c := by
  have hbyte {n : Nat} (hn : n < 256) (h37 : n ≠ 37) : Ascii.percent ≠ .ofNat n := by
    intro he
    have hn' : Ascii.percent.toNat = n := by rw [he, UInt8.toNat_ofNat_of_lt' hn]
    exact h37 hn'.symm
  have hencode := Utf8.encode_ofNat (v := c.toNat) c.valid
  rw [Char.ofNat_toNat] at hencode
  rw [hencode]
  split
  · have hc : c.toNat ≠ 37 := fun hn => h (by rw [← Char.ofNat_toNat c, hn])
    simpa using hbyte (by omega) hc
  split
  · simp only [List.mem_cons, List.not_mem_nil, or_false, not_or]
    exact ⟨hbyte (by omega) (by omega), hbyte (by omega) (by omega)⟩
  split
  · simp only [List.mem_cons, List.not_mem_nil, or_false, not_or]
    exact ⟨hbyte (by omega) (by omega), hbyte (by omega) (by omega),
      hbyte (by omega) (by omega)⟩
  · simp only [List.mem_cons, List.not_mem_nil, or_false, not_or]
    exact ⟨hbyte (by omega) (by omega), hbyte (by omega) (by omega),
      hbyte (by omega) (by omega), hbyte (by omega) (by omega)⟩

theorem unsigned_char {c : Char} : Unsigned (.char c) ↔ c ≠ '%' := by
  constructor
  · rintro h rfl
    exact h (by decide)
  · exact not_mem_encode

/-- A percent sign is a wall, whichever way it was read. -/
theorem bytes_of_signed {c : Chunk} (h : ¬ Unsigned c) : Wall c ∧ c.bytes = [Ascii.percent] := by
  cases c with
  | stray b =>
    have hb : b = Ascii.percent := by simpa [Unsigned, Chunk.bytes, eq_comm] using h
    exact ⟨wall_stray b, by rw [hb]; rfl⟩
  | char c =>
    obtain rfl : c = '%' := Decidable.of_not_not fun hc => h (unsigned_char.mpr hc)
    refine ⟨⟨boundary_ascii (by decide), fun b => ?_⟩, by decide⟩
    cases b with
    | stray => rfl
    | char b => simp [composeChunks?, compose?_percent]

theorem unsigned_normalized {xs : List Chunk} (h : ∀ c ∈ xs, Unsigned c) :
    ∀ c ∈ normalized xs, Unsigned c := by
  refine forall_mem_normalized (by decide) (fun c hc d hd => ?_) (fun a b c hc => ?_) h
  · cases c with
    | stray b => rwa [List.mem_singleton.mp hd]
    | char c =>
      obtain ⟨e, he, rfl⟩ := List.mem_map.mp hd
      exact unsigned_char.mpr (decompose_ne_percent (unsigned_char.mp hc) he)
  · cases a with
    | stray => cases hc
    | char a =>
      cases b with
      | stray => cases hc
      | char b =>
        obtain ⟨e, he, rfl⟩ := Option.map_eq_some_iff.mp hc
        exact unsigned_char.mpr fun heq => compose?_ne_percent (heq ▸ he)

/-! ## Doubled chunks -/

/-- A percent sign is there twice, any other chunk once. -/
def twice (c : Chunk) : List Chunk := if Unsigned c then [c] else [c, c]

theorem flatMap_twice {xs : List Chunk} (h : ∀ c ∈ xs, Unsigned c) : xs.flatMap twice = xs := by
  induction xs with
  | nil => rfl
  | cons c xs ih =>
    obtain ⟨hc, hxs⟩ := List.forall_mem_cons.mp h
    rw [List.flatMap_cons, ih hxs, twice, if_pos hc]
    rfl

theorem doublePercents_append (a b : Bytes) :
    doublePercents (a ++ b) = doublePercents a ++ doublePercents b :=
  List.flatMap_append

theorem doublePercents_of_not_mem {text : Bytes} (h : Ascii.percent ∉ text) :
    doublePercents text = text := by
  induction text with
  | nil => rfl
  | cons b rest ih =>
    obtain ⟨hb, hrest⟩ := List.ne_and_not_mem_of_not_mem_cons h
    rw [doublePercents, List.flatMap_cons, if_neg hb.symm]
    exact congrArg _ (ih hrest)

theorem doublePercents_bytes (xs : List Chunk) :
    doublePercents (xs.flatMap Chunk.bytes) = (xs.flatMap twice).flatMap Chunk.bytes := by
  induction xs with
  | nil => rfl
  | cons c xs ih =>
    rw [List.flatMap_cons, doublePercents_append, ih, List.flatMap_cons, List.flatMap_append]
    congr 1
    by_cases hc : Unsigned c
    · simp [twice, hc, doublePercents_of_not_mem hc]
    · simp [twice, hc, (bytes_of_signed hc).2, doublePercents]

/-- Composition and doubling of signs commute, chunk by chunk. Each sign is a wall, so that
what stands between two of them is composed alone, and gives no sign of its own. -/
theorem normalized_flatMap_twice (ys : List Chunk) :
    normalized (ys.flatMap twice) = (normalized ys).flatMap twice := by
  -- `xs` is what has been passed since the last sign
  suffices ∀ xs, (∀ c ∈ xs, Unsigned c) →
      normalized (xs ++ ys.flatMap twice) = (normalized (xs ++ ys)).flatMap twice by
    simpa using this [] (by simp)
  induction ys with
  | nil =>
    intro xs hxs
    rw [List.flatMap_nil, List.append_nil, flatMap_twice (unsigned_normalized hxs)]
  | cons c ys ih =>
    intro xs hxs
    by_cases hc : Unsigned c
    · have hnext := ih (xs ++ [c]) (List.forall_mem_append.mpr ⟨hxs, by simpa using hc⟩)
      simpa [twice, hc] using hnext
    · obtain ⟨hwall, -⟩ := bytes_of_signed hc
      have hsecond : normalized ([] ++ c :: ys.flatMap twice) =
          normalized [] ++ c :: normalized (ys.flatMap twice) := normalized_wall hwall
      calc normalized (xs ++ (c :: ys).flatMap twice)
          = normalized (xs ++ c :: (c :: ys.flatMap twice)) := by simp [twice, hc]
        _ = normalized xs ++ c :: c :: normalized (ys.flatMap twice) := by
          rw [normalized_wall hwall, ← List.nil_append (c :: ys.flatMap twice), hsecond]
          rfl
        _ = (normalized xs ++ c :: normalized ys).flatMap twice := by
          have hrest := ih [] (by simp)
          simp only [List.nil_append] at hrest
          rw [hrest, List.flatMap_append, flatMap_twice (unsigned_normalized hxs)]
          simp [twice, hc]
        _ = (normalized (xs ++ c :: ys)).flatMap twice := by rw [normalized_wall hwall]

/-! ## Doubled texts -/

/-- The chunks of a text and of the text with its signs doubled: they differ in the signs
only, up to where boundaries follow to the end. -/
def Doubled (before after : List Chunk) : Prop :=
  ∃ xs tail tail' : List Chunk, before = xs ++ tail ∧ after = xs.flatMap twice ++ tail' ∧
    (∀ q ∈ tail, Boundary q) ∧ (∀ q ∈ tail', Boundary q) ∧
    tail'.flatMap Chunk.bytes = doublePercents (tail.flatMap Chunk.bytes)

section
variable {before after : List Chunk} {b : UInt8} {rest : Bytes} {k : Nat}

theorem Doubled.cons (h : Doubled before after) (c : Chunk) :
    Doubled (c :: before) (twice c ++ after) := by
  obtain ⟨xs, tail, tail', rfl, rfl, hb⟩ := h
  exact ⟨c :: xs, tail, tail', rfl, by simp, hb⟩

theorem Doubled.cons_unsigned (h : Doubled before after) {c : Chunk} (hc : Unsigned c) :
    Doubled (c :: before) (c :: after) := by
  have hnext := h.cons c
  rwa [twice, if_pos hc] at hnext

theorem Doubled.bytes_normalized (h : Doubled before after) :
    (normalized after).flatMap Chunk.bytes =
      doublePercents ((normalized before).flatMap Chunk.bytes) := by
  obtain ⟨xs, tail, tail', rfl, rfl, htail, htail', hbytes⟩ := h
  rw [normalized_append_boundaries htail', normalized_append_boundaries htail,
    normalized_flatMap_twice, List.flatMap_append, List.flatMap_append, doublePercents_append,
    doublePercents_bytes, hbytes]

theorem doublePercents_cons (hb : b ≠ Ascii.percent) :
    doublePercents (b :: rest) = b :: doublePercents rest := by
  rw [doublePercents, List.flatMap_cons, if_neg hb]
  rfl

theorem length_le_doublePercents (text : Bytes) : text.length ≤ (doublePercents text).length := by
  induction text with
  | nil => exact Nat.le_refl _
  | cons b rest ih =>
    have hpos : 1 ≤ (if b = Ascii.percent then [b, b] else [b]).length := by split <;> simp
    rw [doublePercents, List.flatMap_cons, List.length_append, List.length_cons, Nat.add_comm]
    exact Nat.add_le_add hpos ih

theorem mem_take_doublePercents (h : Ascii.percent ∈ rest.take k) :
    Ascii.percent ∈ (doublePercents rest).take k := by
  induction rest generalizing k with
  | nil => simp at h
  | cons b rest ih =>
    cases k with
    | zero => simp at h
    | succ k =>
      by_cases hb : b = Ascii.percent
      · simp [doublePercents, hb]
      · rw [List.take_succ_cons] at h
        rw [doublePercents_cons hb, List.take_succ_cons]
        exact List.mem_cons_of_mem b (ih (List.mem_of_ne_of_mem (Ne.symm hb) h))

/-- A sign among the bytes that are announced is none of them. -/
theorem head?_of_percent (h : Ascii.percent ∈ rest.take (announced b - 1)) :
    Utf8.head? (b :: rest) = none := by
  cases hh : Utf8.head? (b :: rest) with
  | none => rfl
  | some found =>
    obtain ⟨c, n⟩ := found
    obtain ⟨rfl, hhigh, -⟩ := of_head?_eq_some hh
    exact absurd (hhigh Ascii.percent h) (by decide)

theorem wholeChunks_percent (rest : Bytes) :
    wholeChunks 0 (Ascii.percent :: rest) = .char '%' :: wholeChunks 0 rest := by
  have hone : announced Ascii.percent = 1 := by decide
  have hhead : Utf8.head? (Ascii.percent :: rest) = some ('%', 1) := rfl
  rw [wholeChunks, if_neg (by omega), hhead]

/-- The bytes of a text that ends too early are stray. With a sign among them doubled, the end
may be late enough, but there is no character beyond ASCII in them either. -/
theorem doubled_short (hb : b ≠ Ascii.percent) (h : rest.length + 1 < announced b) :
    Doubled (wholeChunks 0 (b :: rest)) (wholeChunks 0 (doublePercents (b :: rest))) := by
  have hstrays {text : Bytes} : ∀ q ∈ text.map Chunk.stray, Boundary q := by
    intro q hq
    obtain ⟨x, -, rfl⟩ := List.mem_map.mp hq
    exact boundary_stray x
  refine ⟨[], wholeChunks 0 (b :: rest), wholeChunks 0 (doublePercents (b :: rest)), rfl, rfl,
    ?_, ?_, by rw [wholeChunks_bytes, wholeChunks_bytes]⟩
  · rw [wholeChunks, if_pos h]
    exact hstrays
  rw [doublePercents_cons hb, wholeChunks]
  split
  · exact hstrays
  next hlong =>
    have hfour : announced b ≤ 4 := by
      rw [announced]
      split
      · decide
      split
      · decide
      split <;> decide
    have hsign : Ascii.percent ∈ rest := by
      refine Decidable.of_not_not fun hn => hlong ?_
      rwa [doublePercents_of_not_mem hn]
    have htake : Ascii.percent ∈ rest.take (announced b - 1) := by
      rwa [List.take_of_length_le (by omega)]
    rw [head?_of_percent (mem_take_doublePercents htake)]
    refine List.forall_mem_cons.mpr ⟨boundary_stray b, boundary_of_mem_wholeChunks ?_⟩
    -- at most two bytes are left, and one of them is a sign
    have hlow : Ascii.percent < 0x80 := by decide
    rcases rest with - | ⟨x, - | ⟨y, - | ⟨z, rest⟩⟩⟩
    · cases hsign
    · obtain rfl := List.mem_singleton.mp hsign
      simp [doublePercents, hlow]
    · by_cases hx : x = Ascii.percent <;> by_cases hy : y = Ascii.percent <;>
        simp_all [doublePercents]
    · simp only [List.length_cons] at h
      omega

theorem doubled_wholeChunks (text : Bytes) :
    Doubled (wholeChunks 0 text) (wholeChunks 0 (doublePercents text)) := by
  match text with
  | [] => exact ⟨[], [], [], rfl, rfl, by simp, by simp, rfl⟩
  | b :: rest =>
    by_cases hb : b = Ascii.percent
    · subst hb
      have hnext := (doubled_wholeChunks rest).cons (.char '%')
      have hdouble : doublePercents (Ascii.percent :: rest) =
          Ascii.percent :: Ascii.percent :: doublePercents rest := rfl
      rwa [hdouble, wholeChunks_percent, wholeChunks_percent, wholeChunks_percent]
    by_cases hshort : rest.length + 1 < announced b
    · exact doubled_short hb hshort
    have hstray : Unsigned (.stray b) := by simpa [Unsigned, Chunk.bytes] using Ne.symm hb
    have hlong : ¬ (doublePercents rest).length + 1 < announced b := by
      have := length_le_doublePercents rest
      omega
    rw [doublePercents_cons hb, wholeChunks, if_neg hshort, wholeChunks, if_neg hlong]
    by_cases hp : Ascii.percent ∈ rest.take (announced b - 1)
    · rw [head?_of_percent hp, head?_of_percent (mem_take_doublePercents hp)]
      exact (doubled_wholeChunks rest).cons_unsigned hstray
    have hsplit : doublePercents rest =
        rest.take (announced b - 1) ++ doublePercents (rest.drop (announced b - 1)) := by
      rw [← doublePercents_of_not_mem hp, ← doublePercents_append, List.take_append_drop]
    have hlen : (rest.take (announced b - 1)).length = announced b - 1 := by
      rw [List.length_take]
      omega
    have hhead : Utf8.head? (b :: doublePercents rest) = Utf8.head? (b :: rest) := by
      rw [← head?_take, hsplit, List.take_left' hlen, head?_take]
    rw [hhead]
    cases hh : Utf8.head? (b :: rest) with
    | none => exact (doubled_wholeChunks rest).cons_unsigned hstray
    | some found =>
      obtain ⟨c, n⟩ := found
      obtain ⟨rfl, -⟩ := of_head?_eq_some hh
      have hc : Unsigned (.char c) := by
        refine unsigned_char.mpr ?_
        rintro rfl
        exact hb (List.cons.inj (Utf8.encode_of_head? hh).2).1
      simp only [wholeChunks_skip (announced b - 1)]
      rw [hsplit, List.drop_left' hlen]
      exact (doubled_wholeChunks (rest.drop (announced b - 1))).cons_unsigned hc
termination_by text.length

/-- A text may be composed before its percent signs are doubled or after. -/
theorem nfc_doublePercents (text : Bytes) :
    nfc (doublePercents text) = doublePercents (nfc text) := by
  rw [nfc_eq, nfc_eq]
  exact (doubled_wholeChunks text).bytes_normalized

end
end RustLua.Lua
