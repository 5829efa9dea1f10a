import RustLua.Bytes.Utf8

/-! # Reading bytes as characters loses nothing

A character is read only where the bytes are the ones that encode it: overlong forms,
surrogates and values past the last scalar are stray. So the chunks of a text hold all of
its bytes, in order. -/
namespace RustLua.Utf8

variable {text rest : Bytes} {a : UInt8} {c : Char} {n v : Nat}

theorem ofNat_eq (h : v = a.toNat) : UInt8.ofNat v = a := by
  rw [h, UInt8.ofNat_toNat]

theorem toNat_ofNat (h : v < 0xD800 ∨ 0xDFFF < v ∧ v < 0x110000) : (Char.ofNat v).toNat = v := by
  rw [Char.ofNat, dif_pos h]
  rfl

/-- The encoding of the character with a given code. -/
theorem encode_ofNat (h : v < 0xD800 ∨ 0xDFFF < v ∧ v < 0x110000) :
    encode (Char.ofNat v) =
      if v ≤ 0x7F then [.ofNat v]
      else if v ≤ 0x7FF then [.ofNat (v / 64 % 32 + 0xC0), .ofNat (v % 64 + 0x80)]
      else if v ≤ 0xFFFF then
        [.ofNat (v / 4096 % 16 + 0xE0), .ofNat (v / 64 % 64 + 0x80), .ofNat (v % 64 + 0x80)]
      else [.ofNat (v / 262144 % 8 + 0xF0), .ofNat (v / 4096 % 64 + 0x80),
        .ofNat (v / 64 % 64 + 0x80), .ofNat (v % 64 + 0x80)] := by
  have hv : (Char.ofNat v).val.toNat = v := toNat_ofNat h
  simp only [encode, String.utf8EncodeChar, hv]

theorem within_iff {low high : UInt8} :
    low ≤ a ∧ a ≤ high ↔ low.toNat ≤ a.toNat ∧ a.toNat ≤ high.toNat := by
  rw [UInt8.le_iff_toNat_le, UInt8.le_iff_toNat_le]

theorem isContinuation_iff : isContinuation a = true ↔ 0x80 ≤ a.toNat ∧ a.toNat ≤ 0xBF := by
  simp [isContinuation, UInt8.le_iff_toNat_le]

/-- Where a second byte may stand, no shorter form, no surrogate and no value past the last
scalar comes of it. -/
theorem isSecond_bounds {lead b : UInt8} (h : isSecond lead b = true) :
    (0x80 ≤ b.toNat ∧ b.toNat ≤ 0xBF) ∧ (lead.toNat = 0xE0 → 0xA0 ≤ b.toNat) ∧
      (lead.toNat = 0xED → b.toNat ≤ 0x9F) ∧ (lead.toNat = 0xF0 → 0x90 ≤ b.toNat) ∧
      (lead.toNat = 0xF4 → b.toNat ≤ 0x8F) := by
  have hlead (k : UInt8) : lead.toNat = k.toNat → lead = k := UInt8.toNat.inj
  simp only [isSecond, Bool.and_eq_true, Bool.or_eq_true, bne_iff_ne, decide_eq_true_eq,
    UInt8.le_iff_toNat_le, isContinuation_iff] at h
  obtain ⟨⟨⟨⟨hb, h1⟩, h2⟩, h3⟩, h4⟩ := h
  exact ⟨hb, fun he => h1.resolve_left (not_not_intro (hlead 0xE0 he)),
    fun he => h2.resolve_left (not_not_intro (hlead 0xED he)),
    fun he => h3.resolve_left (not_not_intro (hlead 0xF0 he)),
    fun he => h4.resolve_left (not_not_intro (hlead 0xF4 he))⟩

/-- A character takes at least one byte, and its bytes are those it was read from. -/
theorem encode_of_head? (h : head? text = some (c, n)) :
    0 < n ∧ text = encode c ++ text.drop n := by
  rcases text with - | ⟨a, rest⟩
  · cases h
  by_cases hone : a < 0x80
  · simp only [head?, if_pos hone, Option.some.injEq, Prod.mk.injEq] at h
    obtain ⟨rfl, rfl⟩ := h
    have hle : a.toNat ≤ 0x7F := Nat.le_of_lt_succ (UInt8.lt_iff_toNat_lt.mp hone)
    rw [encode_ofNat (by omega), if_pos hle, UInt8.ofNat_toNat]
    exact ⟨Nat.one_pos, rfl⟩
  by_cases htwo : 0xC2 ≤ a ∧ a ≤ 0xDF
  · rcases rest with - | ⟨b, rest⟩ <;> simp only [head?, if_neg hone, if_pos htwo] at h
    · cases h
    obtain ⟨hb, h⟩ := Option.ite_none_right_eq_some.mp h
    simp only [Option.some.injEq, Prod.mk.injEq] at h
    obtain ⟨rfl, rfl⟩ := h
    obtain ⟨hlow, hhigh⟩ : 0xC2 ≤ a.toNat ∧ a.toNat ≤ 0xDF := within_iff.mp htwo
    have hb := isContinuation_iff.mp hb
    simp only [low]
    rw [encode_ofNat (by omega), if_neg (by omega), if_pos (by omega),
      ofNat_eq (a := a) (by omega), ofNat_eq (a := b) (by omega)]
    exact ⟨Nat.two_pos, rfl⟩
  by_cases hthree : 0xE0 ≤ a ∧ a ≤ 0xEF
  · rcases rest with - | ⟨b, - | ⟨d, rest⟩⟩ <;>
      simp only [head?, if_neg hone, if_neg htwo, if_pos hthree] at h
    · cases h
    · cases h
    obtain ⟨hb, h⟩ := Option.ite_none_right_eq_some.mp h
    simp only [Option.some.injEq, Prod.mk.injEq] at h
    obtain ⟨rfl, rfl⟩ := h
    rw [Bool.and_eq_true] at hb
    obtain ⟨hlow, hhigh⟩ : 0xE0 ≤ a.toNat ∧ a.toNat ≤ 0xEF := within_iff.mp hthree
    obtain ⟨hsecond, he0, hed, -, -⟩ := isSecond_bounds hb.1
    have hd := isContinuation_iff.mp hb.2
    simp only [low]
    rw [encode_ofNat (by omega), if_neg (by omega), if_neg (by omega), if_pos (by omega),
      ofNat_eq (a := a) (by omega), ofNat_eq (a := b) (by omega), ofNat_eq (a := d) (by omega)]
    exact ⟨by decide, rfl⟩
  by_cases hfour : 0xF0 ≤ a ∧ a ≤ 0xF4
  · rcases rest with - | ⟨b, - | ⟨d, - | ⟨e, rest⟩⟩⟩ <;>
      simp only [head?, if_neg hone, if_neg htwo, if_neg hthree, if_pos hfour] at h
    · cases h
    · cases h
    · cases h
    obtain ⟨hb, h⟩ := Option.ite_none_right_eq_some.mp h
    simp only [Option.some.injEq, Prod.mk.injEq] at h
    obtain ⟨rfl, rfl⟩ := h
    rw [Bool.and_eq_true, Bool.and_eq_true] at hb
    obtain ⟨hlow, hhigh⟩ : 0xF0 ≤ a.toNat ∧ a.toNat ≤ 0xF4 := within_iff.mp hfour
    obtain ⟨hsecond, -, -, hf0, hf4⟩ := isSecond_bounds hb.1.1
    have hd := isContinuation_iff.mp hb.1.2
    have he := isContinuation_iff.mp hb.2
    simp only [low]
    rw [encode_ofNat (by omega), if_neg (by omega), if_neg (by omega), if_neg (by omega),
      ofNat_eq (a := a) (by omega), ofNat_eq (a := b) (by omega), ofNat_eq (a := d) (by omega),
      ofNat_eq (a := e) (by omega)]
    exact ⟨by decide, rfl⟩
  · simp only [head?, if_neg hone, if_neg htwo, if_neg hthree, if_neg hfour] at h
    cases h

theorem chunksFrom_bytes (skip : Nat) (text : Bytes) :
    (chunksFrom skip text).flatMap Chunk.bytes = text.drop skip := by
  induction text generalizing skip with
  | nil => simp [chunksFrom]
  | cons b rest ih =>
    cases skip with
    | succ skip => exact ih skip
    | zero =>
      rw [chunksFrom]
      cases hh : head? (b :: rest) with
      | none => rw [List.flatMap_cons, ih]; rfl
      | some found =>
        obtain ⟨c, n⟩ := found
        obtain ⟨hpos, hsplit⟩ := encode_of_head? hh
        obtain ⟨n, rfl⟩ := Nat.exists_eq_add_one.mpr hpos
        rw [List.flatMap_cons, ih]
        exact hsplit.symm

/-- The chunks of a text hold its bytes. -/
theorem chunks_bytes (text : Bytes) : (chunks text).flatMap Chunk.bytes = text :=
  chunksFrom_bytes 0 text

end RustLua.Utf8
