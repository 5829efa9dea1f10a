import Mathlib.Data.List.GetD
import Mathlib.Data.List.TakeWhile
import Mathlib.Tactic.SplitIfs
import RustLua.Token.Literal

/-! # Literals are decided by the bytes they take

A reader looks at a text of which it takes the beginning. Two things are said of each:
how far it may reach, and that a value depends on the bytes that were taken only
(`Settled`), whatever stands behind them. An escape alone may look one byte further, at
the end of a run of layout; inside a literal that byte belongs to the literal. -/
namespace RustLua.Token

variable {text taken rest bytes part : Bytes} {n : Nat} {p : UInt8 → Bool} {r : Reading}
  {needle : Bytes}

/-! ## Texts that begin alike -/

theorem length_takeWhile_le (p : UInt8 → Bool) (text : Bytes) :
    (text.takeWhile p).length ≤ text.length :=
  (List.takeWhile_prefix p).length_le

theorem take_length_takeWhile (p : UInt8 → Bool) (text : Bytes) :
    text.take (text.takeWhile p).length = text.takeWhile p :=
  (List.prefix_iff_eq_take.mp (List.takeWhile_prefix p)).symm

theorem drop_length_takeWhile (p : UInt8 → Bool) (text : Bytes) :
    text.drop (text.takeWhile p).length = text.dropWhile p := by
  have hsplit : text.takeWhile p ++ text.dropWhile p = text := List.takeWhile_append_dropWhile
  have hleft := congrArg (List.drop (text.takeWhile p).length) hsplit
  rw [List.drop_left] at hleft
  exact hleft.symm

/-- A run that ends inside the common beginning. -/
theorem takeWhile_append_of_lt (h : ((taken ++ rest).takeWhile p).length < taken.length)
    (rest' : Bytes) : (taken ++ rest').takeWhile p = (taken ++ rest).takeWhile p := by
  rw [List.takeWhile_append] at h
  split at h
  · rw [List.length_append] at h
    omega
  · rename_i hlength
    rw [List.takeWhile_append, List.takeWhile_append, if_neg hlength, if_neg hlength]

/-- A run that ends with the common beginning at the latest, behind which nothing goes on. -/
theorem takeWhile_append_of_le (h : ((taken ++ rest).takeWhile p).length ≤ taken.length)
    {rest' : Bytes} (hstop : rest'.takeWhile p = []) :
    (taken ++ rest').takeWhile p = (taken ++ rest).takeWhile p := by
  rw [List.takeWhile_append] at h
  rw [List.takeWhile_append, List.takeWhile_append]
  split at h
  · rename_i hlength
    rw [List.length_append] at h
    have hrest : rest.takeWhile p = [] := List.length_eq_zero_iff.mp (by omega)
    rw [if_pos hlength, if_pos hlength, hstop, hrest]
  · rename_i hlength
    rw [if_neg hlength, if_neg hlength]

/-- A text that shows a byte other than NUL has it. -/
theorem eq_cons_of_headD {b : UInt8} (h : text.headD 0 = b) (hb : b ≠ 0) :
    ∃ rest, text = b :: rest := by
  cases text with
  | nil => exact absurd h.symm hb
  | cons c rest => exact ⟨rest, congrArg (· :: rest) h⟩

theorem getD_append_congr {i : Nat} (h : i < taken.length) (rest rest' : Bytes) :
    (taken ++ rest').getD i 0 = (taken ++ rest).getD i 0 := by
  rw [List.getD_append _ _ _ _ h, List.getD_append _ _ _ _ h]

/-! ## Readings -/

/-- The bytes that a reading takes. -/
def Reading.width : Reading → Nat
  | .value _ n => n
  | .fault _ n => n

@[simp] theorem Reading.width_behind (part : Bytes) (n : Nat) (r : Reading) :
    (r.behind part n).width = n + r.width := by
  cases r <;> rfl

theorem Reading.behind_nil_zero (r : Reading) : r.behind [] 0 = r := by
  cases r <;> simp [Reading.behind]

theorem Reading.behind_behind (part more : Bytes) (k m : Nat) (r : Reading) :
    (r.behind part k).behind more m = r.behind (more ++ part) (m + k) := by
  cases r <;> simp [Reading.behind, Nat.add_assoc]

theorem Reading.of_behind_eq_value {k : Nat} (h : r.behind part k = .value bytes n) :
    ∃ b m, r = .value b m ∧ bytes = part ++ b ∧ n = k + m := by
  cases r with
  | value b m =>
    cases h
    exact ⟨b, m, rfl, rfl, rfl⟩
  | fault e m => cases h

/-- A reader whose values depend on the bytes taken only, and do not reach further. -/
def Settled (read : Bytes → Reading) : Prop :=
  ∀ text bytes n, read text = .value bytes n →
    n ≤ text.length ∧ ∀ rest, read (text.take n ++ rest) = .value bytes n

theorem settled_of_append {read : Bytes → Reading}
    (hle : ∀ text bytes n, read text = .value bytes n → n ≤ text.length)
    (happend : ∀ taken rest bytes, read (taken ++ rest) = .value bytes taken.length →
      ∀ rest', read (taken ++ rest') = .value bytes taken.length) : Settled read := by
  intro text bytes n h
  have hn := hle text bytes n h
  refine ⟨hn, fun rest' => ?_⟩
  have hlength : (text.take n).length = n := List.length_take_of_le hn
  have htaken := happend (text.take n) (text.drop n) bytes
  rw [List.take_append_drop, hlength] at htaken
  exact htaken h rest'

/-! ## Escapes -/

theorem hexEscape_value (h : hexEscape text = .value bytes n) : n = 3 ∧ 2 ≤ text.length := by
  unfold hexEscape at h
  split at h
  · split at h
    · cases h
    · rename_i hc
      cases h
      exact ⟨rfl, by omega⟩
  · cases h

theorem hexEscape_append (h : hexEscape (taken ++ rest) = .value bytes n)
    (hn : n ≤ taken.length + 1) (rest' : Bytes) : hexEscape (taken ++ rest') = .value bytes n := by
  obtain ⟨rfl, _⟩ := hexEscape_value h
  have htake (r : Bytes) : (taken ++ r).take 2 = taken.take 2 :=
    List.take_append_of_le_length (by omega)
  have hlength (r : Bytes) : ¬ (taken ++ r).length < 2 := by
    rw [List.length_append]
    omega
  unfold hexEscape at h ⊢
  rw [htake] at h ⊢
  simpa only [hlength] using h

theorem hexEscape_width_le : (hexEscape text).width ≤ text.length + 1 := by
  cases h : hexEscape text with
  | value bytes n =>
    obtain ⟨rfl, hlength⟩ := hexEscape_value h
    exact Nat.succ_le_succ hlength
  | fault e n =>
    unfold hexEscape at h
    split at h
    · split at h <;> cases h
      exact Nat.le_add_left 1 _
    · cases h
      exact Nat.le_add_left 1 _

/-- What stands between the braces of an escape goes on at such bytes. -/
def isScalarInner (b : UInt8) : Bool :=
  b != Ascii.braceClose && b != Ascii.nul && b != Ascii.quote

theorem unicodeEscape_cons (b : UInt8) (text : Bytes) :
    unicodeEscape (b :: text) =
      if b = Ascii.braceOpen then
        if text.getD (text.takeWhile isScalarInner).length 0 = Ascii.braceClose then
          match scalar? ((text.takeWhile isScalarInner).filter (· != Ascii.underscore)) with
          | some c => .value (Utf8.encode c) ((text.takeWhile isScalarInner).length + 3)
          | none => .fault .badUnicodeEscape ((text.takeWhile isScalarInner).length + 3)
        else .fault .openUnicodeEscape ((text.takeWhile isScalarInner).length + 2)
      else .fault .badUnicodeEscape 1 := rfl

theorem lt_length_of_getD_ne {i : Nat} (h : text.getD i 0 ≠ 0) : i < text.length := by
  refine Nat.lt_of_not_le fun hle => h ?_
  rw [List.getD_eq_getElem?_getD, List.getElem?_eq_none hle]
  rfl

theorem unicodeEscape_width_le : (unicodeEscape text).width ≤ text.length + 1 := by
  cases text with
  | nil => exact Nat.le_refl 1
  | cons b text =>
    have hinner := length_takeWhile_le isScalarInner text
    rw [unicodeEscape_cons]
    split
    · split
      · rename_i hclose
        have hlt : _ < text.length := lt_length_of_getD_ne (by rw [hclose]; decide)
        split <;> simp only [Reading.width, List.length_cons] <;> omega
      · simp only [Reading.width, List.length_cons]
        omega
    · exact Nat.le_add_left 1 _

theorem unicodeEscape_append (h : unicodeEscape (taken ++ rest) = .value bytes n)
    (hn : n ≤ taken.length + 1) (rest' : Bytes) :
    unicodeEscape (taken ++ rest') = .value bytes n := by
  cases taken with
  | nil =>
    have h1 : n ≤ 1 := hn
    cases hr : rest with
    | nil => rw [hr] at h; cases h
    | cons b text =>
      rw [hr, List.nil_append, unicodeEscape_cons] at h
      split at h
      · split at h
        · split at h <;> cases h
          omega
        · cases h
      · cases h
  | cons b inner =>
    rw [List.cons_append, unicodeEscape_cons] at h ⊢
    rw [List.length_cons] at hn
    split at h
    · rename_i hopen
      split at h
      · rename_i hclose
        have hlt : ((inner ++ rest).takeWhile isScalarInner).length < inner.length := by
          split at h <;> cases h
          omega
        rw [if_pos hopen, takeWhile_append_of_lt hlt, getD_append_congr hlt rest, if_pos hclose]
        exact h
      · cases h
    · cases h

/-- What an escape reads behind the byte that names it. -/
inductive EscapeReader : (Bytes → Reading) → Prop
  | value (bytes : Bytes) : EscapeReader fun _ => .value bytes 1
  | fault (error : LiteralError) : EscapeReader fun _ => .fault error 1
  | newline : EscapeReader fun text => .value [] (1 + (text.takeWhile Ascii.isLayout).length)
  | hex : EscapeReader hexEscape
  | unicode : EscapeReader unicodeEscape

theorem EscapeReader.ite {c : Prop} [Decidable c] {read other : Bytes → Reading}
    (hread : EscapeReader read) (hother : EscapeReader other) :
    EscapeReader fun text => if c then read text else other text := by
  by_cases hc : c
  · simp only [if_pos hc]
    exact hread
  · simp only [if_neg hc]
    exact hother

theorem escapeReader_escape (b : UInt8) : EscapeReader fun text => escape (b :: text) := by
  simp only [escape, List.headD_cons, List.drop_succ_cons, List.drop_zero]
  -- by what the byte is, in the order of the definition
  refine .ite (.value [10]) ?_
  refine .ite (.value [13]) ?_
  refine .ite (.value [9]) ?_
  refine .ite (.value [0]) ?_
  refine .ite (.value [b]) ?_
  refine .ite .newline ?_
  refine .ite .hex ?_
  exact .ite .unicode (.fault (.unknownEscape b))

theorem EscapeReader.width_le {read : Bytes → Reading} (h : EscapeReader read) (text : Bytes) :
    (read text).width ≤ text.length + 1 := by
  cases h with
  | value | fault => exact Nat.le_add_left 1 _
  | newline =>
    have hlayout := length_takeWhile_le Ascii.isLayout text
    rw [Reading.width]
    omega
  | hex => exact hexEscape_width_le
  | unicode => exact unicodeEscape_width_le

theorem EscapeReader.append {read : Bytes → Reading} (hread : EscapeReader read)
    (h : read (taken ++ rest) = .value bytes n) (hn : n ≤ taken.length) (rest' : Bytes) :
    read (taken ++ rest') = .value bytes n := by
  cases hread with
  | value | fault => exact h
  | newline =>
    have hrun : ((taken ++ rest).takeWhile Ascii.isLayout).length < taken.length := by
      cases h
      omega
    simp only [takeWhile_append_of_lt hrun]
    exact h
  | hex => exact hexEscape_append h (by omega) rest'
  | unicode => exact unicodeEscape_append h (by omega) rest'

/-- Only an escape that is cut off by the end reaches behind it. -/
theorem escape_width_le (h : text ≠ []) : (escape text).width ≤ text.length := by
  obtain ⟨b, text, rfl⟩ := List.exists_cons_of_ne_nil h
  exact (escapeReader_escape b).width_le text

theorem escape_value_le (h : escape text = .value bytes n) : n ≤ text.length := by
  cases text with
  | nil => cases h
  | cons b rest =>
    have hw : (escape (b :: rest)).width ≤ (b :: rest).length := escape_width_le (by simp)
    rw [h] at hw
    exact hw

theorem escape_append (h : escape (taken ++ rest) = .value bytes n) (hn : n < taken.length)
    (rest' : Bytes) : escape (taken ++ rest') = .value bytes n := by
  obtain ⟨b, inner, rfl⟩ := List.exists_cons_of_length_pos (Nat.zero_lt_of_lt hn)
  exact (escapeReader_escape b).append h (Nat.le_of_lt_succ hn) rest'

/-! ## Quoted literals -/

theorem quotedFrom_value {skip : Nat} (h : quotedFrom skip text = .value bytes n) :
    skip < n ∧ n ≤ text.length := by
  fun_induction quotedFrom skip text generalizing bytes n with
  | case1 => cases h
  | case2 skip b rest ih =>
    obtain ⟨_, m, hm, _, rfl⟩ := Reading.of_behind_eq_value h
    obtain ⟨hlt, hle⟩ := ih hm
    rw [List.length_cons]
    omega
  | case3 rest =>
    cases h
    exact ⟨Nat.one_pos, Nat.le_add_left 1 _⟩
  | case4 | case6 => cases h
  | case5 rest _ _ _ _ _ ih | case7 _ rest _ _ _ ih =>
    obtain ⟨_, m, hm, _, rfl⟩ := Reading.of_behind_eq_value h
    obtain ⟨_, hle⟩ := ih hm
    rw [List.length_cons]
    omega

/-- The bytes of a decoded escape are passed over. -/
theorem quotedFrom_skip {skip : Nat} (h : skip ≤ text.length) :
    quotedFrom skip text = (quotedFrom 0 (text.drop skip)).behind [] skip := by
  induction text generalizing skip with
  | nil =>
    obtain rfl := Nat.le_zero.mp h
    rfl
  | cons b text ih =>
    cases skip with
    | zero => exact (Reading.behind_nil_zero _).symm
    | succ skip =>
      rw [quotedFrom, ih (Nat.le_of_succ_le_succ h), List.drop_succ_cons, Reading.behind_behind,
        Nat.add_comm]
      rfl

/-- The closing quote is among the bytes taken, so nothing behind them counts. -/
theorem quotedFrom_append {skip : Nat} (h : quotedFrom skip (taken ++ rest) = .value bytes n)
    (hn : n ≤ taken.length) (rest' : Bytes) :
    quotedFrom skip (taken ++ rest') = .value bytes n := by
  induction taken generalizing skip bytes n with
  | nil =>
    have hpos := (quotedFrom_value h).1
    rw [List.length_nil] at hn
    omega
  | cons b inner ih =>
    rw [List.length_cons] at hn
    rw [List.cons_append] at h ⊢
    cases skip with
    | succ skip =>
      rw [quotedFrom] at h ⊢
      obtain ⟨e, m, hm, rfl, rfl⟩ := Reading.of_behind_eq_value h
      rw [ih hm (by omega)]
      rfl
    | zero =>
      rw [quotedFrom] at h ⊢
      split_ifs at h ⊢ with hquote hnul hslash
      · exact h
      · cases he : escape (inner ++ rest) with
        | fault e k =>
          rw [he] at h
          cases h
        | value e k =>
          rw [he] at h
          obtain ⟨_, m, hm, rfl, rfl⟩ := Reading.of_behind_eq_value h
          -- the byte behind the escape still belongs to the literal
          have hk : k < inner.length := by
            have := (quotedFrom_value hm).1
            omega
          rw [escape_append he hk]
          simp only [ih hm (by omega)]
          rfl
      · obtain ⟨_, m, hm, rfl, rfl⟩ := Reading.of_behind_eq_value h
        rw [ih hm (by omega)]
        rfl

/-- A quoted literal, with a mark of `k` bytes in front of it. -/
theorem settled_quoted (k : Nat) : Settled fun text => (quoted (text.drop k)).behind [] k := by
  refine settled_of_append (fun text bytes n h => ?_) fun taken rest bytes h rest' => ?_
  · obtain ⟨_, m, hm, _, rfl⟩ := Reading.of_behind_eq_value h
    obtain ⟨hpos, hle⟩ := quotedFrom_value hm
    rw [List.length_drop] at hle
    omega
  · obtain ⟨b, m, hm, hb, hlength⟩ := Reading.of_behind_eq_value h
    have hk : k ≤ taken.length := by omega
    have hdrop (r : Bytes) : (taken ++ r).drop k = taken.drop k ++ r :=
      List.drop_append_of_le_length hk
    have hread : quoted ((taken ++ rest').drop k) = .value b m := by
      rw [hdrop] at hm ⊢
      exact quotedFrom_append hm (by rw [List.length_drop]; omega) rest'
    simp only [hread, Reading.behind, hb, hlength]

/-! ## Raw strings -/

theorem find?_add_le {k : Nat} (h : Bytes.find? needle text = some k) :
    k + needle.length ≤ text.length := by
  induction text generalizing k with
  | nil =>
    unfold Bytes.find? at h
    split at h
    · rename_i he
      cases h
      rw [List.isEmpty_iff.mp he]
      exact Nat.le_refl _
    · cases h
  | cons b text ih =>
    unfold Bytes.find? at h
    split at h
    · rename_i hp
      cases h
      rw [Nat.zero_add]
      exact (List.isPrefixOf_iff_prefix.mp hp).length_le
    · obtain ⟨j, hj, rfl⟩ := Option.map_eq_some_iff.mp h
      have := ih hj
      rw [List.length_cons]
      omega

theorem isPrefixOf_append_congr (h : needle.length ≤ taken.length)
    (rest rest' : Bytes) :
    needle.isPrefixOf (taken ++ rest') = needle.isPrefixOf (taken ++ rest) := by
  have hiff (r : Bytes) : needle.isPrefixOf (taken ++ r) = true ↔ needle <+: taken := by
    rw [List.isPrefixOf_iff_prefix]
    constructor
    · exact fun hp => List.prefix_of_prefix_length_le hp (List.prefix_append _ _) h
    · exact fun hp => hp.trans (List.prefix_append _ _)
  rw [Bool.eq_iff_iff, hiff, hiff]

theorem find?_append {k : Nat} (h : Bytes.find? needle (taken ++ rest) = some k)
    (hk : k + needle.length ≤ taken.length) (rest' : Bytes) :
    Bytes.find? needle (taken ++ rest') = some k := by
  induction taken generalizing k with
  | nil =>
    rw [List.length_nil] at hk
    obtain rfl : needle = [] := List.length_eq_zero_iff.mp (by omega)
    obtain rfl : k = 0 := by omega
    cases rest' <;> rfl
  | cons b inner ih =>
    rw [List.length_cons] at hk
    have hmatch : needle.isPrefixOf (b :: (inner ++ rest')) =
        needle.isPrefixOf (b :: (inner ++ rest)) := by
      have hshort : needle.length ≤ (b :: inner).length := by
        rw [List.length_cons]
        omega
      exact isPrefixOf_append_congr hshort rest rest'
    rw [List.cons_append, Bytes.find?] at h ⊢
    rw [hmatch]
    split_ifs at h ⊢
    · exact h
    · obtain ⟨j, hj, rfl⟩ := Option.map_eq_some_iff.mp h
      rw [ih hj (by omega)]
      rfl

/-- The hashes in front of the opening quote. -/
def rawHashes (text : Bytes) : Nat := ((text.drop 1).takeWhile (· == Ascii.hash)).length

/-- What ends a raw string that so many hashes open. -/
def rawCloser (hashes : Nat) : Bytes := Ascii.quote :: List.replicate hashes Ascii.hash

theorem rawString_eq (text : Bytes) :
    rawString text =
      match Bytes.find? (rawCloser (rawHashes text)) (text.drop (rawHashes text + 2)) with
      | some k => .value ((text.drop (rawHashes text + 2)).take k)
          (rawHashes text + 2 + k + (rawHashes text + 1))
      | none =>
        .fault .openRawString (rawHashes text + 2 + (text.drop (rawHashes text + 2)).length) :=
  rfl

theorem rawString_value (h : rawString text = .value bytes n) :
    ∃ k, Bytes.find? (rawCloser (rawHashes text)) (text.drop (rawHashes text + 2)) = some k ∧
      bytes = (text.drop (rawHashes text + 2)).take k ∧
      n = rawHashes text + 2 + k + (rawHashes text + 1) ∧ n ≤ text.length := by
  rw [rawString_eq] at h
  split at h
  · rename_i k hk
    cases h
    have hle := find?_add_le hk
    rw [rawCloser, List.length_cons, List.length_replicate, List.length_drop] at hle
    exact ⟨k, hk, rfl, rfl, by omega⟩
  · cases h

theorem settled_rawString : Settled rawString := by
  refine settled_of_append (fun text bytes n h => ?_) fun taken rest bytes h rest' => ?_
  · obtain ⟨_, _, _, _, hle⟩ := rawString_value h
    exact hle
  · obtain ⟨k, hk, hb, hlength, _⟩ := rawString_value h
    obtain ⟨b, inner, rfl⟩ := List.exists_cons_of_length_pos (l := taken) (by omega)
    have hhashes : rawHashes (b :: inner ++ rest') = rawHashes (b :: inner ++ rest) := by
      refine congrArg List.length (@takeWhile_append_of_lt inner rest _ ?_ rest')
      change rawHashes (b :: inner ++ rest) < inner.length
      rw [List.length_cons] at hlength
      omega
    generalize rawHashes (b :: inner ++ rest) = hashes at hk hb hlength hhashes
    have hdrop (r : Bytes) :
        (b :: inner ++ r).drop (hashes + 2) = (b :: inner).drop (hashes + 2) ++ r :=
      List.drop_append_of_le_length (by omega)
    have hbody : k + (rawCloser hashes).length ≤ ((b :: inner).drop (hashes + 2)).length := by
      rw [rawCloser, List.length_cons, List.length_replicate, List.length_drop]
      omega
    rw [hdrop] at hk hb
    rw [rawString_eq, hhashes, hdrop, find?_append hk hbody, hb, hlength]
    simp only
    rw [List.take_append_of_le_length (by omega), List.take_append_of_le_length (by omega)]

/-! ## Characters -/

/-- A character is decided by its own bytes. -/
theorem head?_eq_some {c : Char} (h : Utf8.head? text = some (c, n)) :
    ∃ first rest, text = first ++ rest ∧ first.length = n ∧ 0 < n ∧
      ∀ rest', Utf8.head? (first ++ rest') = some (c, n) := by
  rcases text with _ | ⟨a, rest⟩
  · cases h
  by_cases hone : a < 0x80
  · simp only [Utf8.head?, if_pos hone] at h
    cases h
    exact ⟨[a], rest, rfl, rfl, by decide, fun _ => by simp [Utf8.head?, hone]⟩
  by_cases htwo : 0xC2 ≤ a ∧ a ≤ 0xDF
  · rcases rest with _ | ⟨b, rest⟩ <;> simp only [Utf8.head?, if_neg hone, if_pos htwo] at h
    · cases h
    · split at h
      · rename_i hb
        cases h
        exact ⟨[a, b], rest, rfl, rfl, by decide, fun _ => by simp [Utf8.head?, hone, htwo, hb]⟩
      · cases h
  by_cases hthree : 0xE0 ≤ a ∧ a ≤ 0xEF
  · rcases rest with _ | ⟨b, _ | ⟨d, rest⟩⟩ <;>
      simp only [Utf8.head?, if_neg hone, if_neg htwo, if_pos hthree] at h
    · cases h
    · cases h
    · split at h
      · rename_i hb
        cases h
        refine ⟨[a, b, d], rest, rfl, rfl, by decide, fun _ => ?_⟩
        simp only [Utf8.head?, List.cons_append, if_neg hone, if_neg htwo, if_pos hthree, if_pos hb]
      · cases h
  by_cases hfour : 0xF0 ≤ a ∧ a ≤ 0xF4
  · rcases rest with _ | ⟨b, _ | ⟨d, _ | ⟨e, rest⟩⟩⟩ <;>
      simp only [Utf8.head?, if_neg hone, if_neg htwo, if_neg hthree, if_pos hfour] at h
    · cases h
    · cases h
    · cases h
    · split at h
      · rename_i hb
        cases h
        refine ⟨[a, b, d, e], rest, rfl, rfl, by decide, fun _ => ?_⟩
        simp only [Utf8.head?, List.cons_append, if_neg hone, if_neg htwo, if_neg hthree,
          if_pos hfour, if_pos hb]
      · cases h
  · rcases rest with _ | ⟨b, _ | ⟨d, _ | ⟨e, rest⟩⟩⟩ <;>
      simp only [Utf8.head?, if_neg hone, if_neg htwo, if_neg hthree, if_neg hfour] at h <;> cases h

/-- What stands between the apostrophes, the opening one being counted. -/
def charInner (body : Bytes) : Reading :=
  if body.headD 0 = Ascii.backslash then (escape (body.drop 1)).behind [] 2
  else match Utf8.head? body with
    | some (c, n) =>
      if c.toNat = 0xFFFD ∨ c.toNat = 0 then .fault .badChar 1 else .value (body.take n) (1 + n)
    | none => .fault .badChar 1

theorem charLiteral_eq (text : Bytes) :
    charLiteral text =
      match charInner (text.drop 1) with
      | .value bytes n =>
        if text.getD n 0 = Ascii.apostrophe then .value bytes (n + 1) else .fault .openChar n
      | .fault error n => .fault error n := rfl

theorem charInner_append (h : charInner (taken ++ rest) = .value bytes taken.length)
    (rest' : Bytes) : charInner (taken ++ rest') = .value bytes taken.length := by
  cases taken with
  | nil =>
    unfold charInner at h
    split at h
    · obtain ⟨_, m, _, _, hm⟩ := Reading.of_behind_eq_value h
      rw [List.length_nil] at hm
      omega
    · split at h
      · split at h
        · cases h
        · rename_i n _ _
          have hm : 1 + n = 0 := (Reading.value.inj h).2
          omega
      · cases h
  | cons b inner =>
    unfold charInner at h ⊢
    rw [List.cons_append] at h ⊢
    simp only [List.headD_cons, List.drop_succ_cons, List.drop_zero] at h ⊢
    split_ifs at h ⊢
    · obtain ⟨e, m, he, rfl, hm⟩ := Reading.of_behind_eq_value h
      rw [List.length_cons] at hm
      rw [escape_append he (by omega) rest', Reading.behind, List.nil_append, List.length_cons, hm]
    · cases hc : Utf8.head? (b :: (inner ++ rest)) with
      | none =>
        rw [hc] at h
        cases h
      | some found =>
        obtain ⟨c, n⟩ := found
        rw [hc] at h
        obtain ⟨first, after, hsplit, hfirst, _, hsettled⟩ := head?_eq_some hc
        simp only at h
        split at h
        · cases h
        · rename_i hvalid
          obtain ⟨hbytes, hn⟩ := Reading.value.inj h
          rw [List.length_cons] at hn
          -- the character lies within the bytes taken
          have hshort : first <+: b :: inner := by
            refine List.prefix_of_prefix_length_le ⟨after, hsplit.symm⟩ ⟨rest, rfl⟩ ?_
            rw [List.length_cons]
            omega
          obtain ⟨more, hmore⟩ := hshort
          rw [← List.cons_append, ← hmore, List.append_assoc, hsettled]
          simp only [if_neg hvalid]
          rw [← hbytes, hsplit, hmore, List.length_cons, hn, ← hfirst, List.take_left,
            List.take_left]

theorem settled_charLiteral : Settled charLiteral := by
  refine settled_of_append (fun text bytes n h => ?_) fun taken rest bytes h rest' => ?_
  · rw [charLiteral_eq] at h
    split at h
    · split at h
      · rename_i hclose
        cases h
        exact lt_length_of_getD_ne (by rw [hclose]; decide)
      · cases h
    · cases h
  · rw [charLiteral_eq] at h ⊢
    cases hi : charInner ((taken ++ rest).drop 1) with
    | fault e k =>
      rw [hi] at h
      cases h
    | value e k =>
      rw [hi] at h
      simp only at h
      split at h
      · rename_i hclose
        obtain ⟨rfl, hk⟩ := Reading.value.inj h
        obtain ⟨b, inner, rfl⟩ := List.exists_cons_of_length_pos (l := taken) (by omega)
        obtain rfl : k = inner.length := Nat.succ.inj hk
        have hinner : charInner ((b :: inner ++ rest').drop 1) = .value e inner.length :=
          charInner_append hi rest'
        have hlast : inner.length < (b :: inner).length := Nat.lt_succ_self _
        rw [← getD_append_congr hlast rest rest'] at hclose
        rw [hinner]
        exact if_pos hclose
      · cases h

/-- Only a backslash that ends the source reaches behind the end. -/
theorem charInner_width_le {body : Bytes} (h : body ≠ [Ascii.backslash]) :
    (charInner body).width ≤ body.length + 1 := by
  unfold charInner
  split
  · rename_i hslash
    rcases body with _ | ⟨b, inner⟩
    · exact absurd hslash (by decide)
    · obtain rfl : b = Ascii.backslash := hslash
      have hinner : inner ≠ [] := fun hnil => h (by rw [hnil])
      have hle := escape_width_le hinner
      simp only [Reading.width_behind, List.drop_succ_cons, List.drop_zero, List.length_cons]
      omega
  · split
    · rename_i c n hc
      obtain ⟨first, after, rfl, hfirst, hpos, _⟩ := head?_eq_some hc
      split <;> simp only [Reading.width, List.length_append] <;> omega
    · exact Nat.le_add_left 1 _

theorem charLiteral_width_le {b : UInt8} {body : Bytes} (h : body ≠ [Ascii.backslash]) :
    (charLiteral (b :: body)).width ≤ (b :: body).length := by
  have hinner := charInner_width_le h
  rw [charLiteral_eq, List.drop_succ_cons, List.drop_zero]
  split
  · rename_i hi
    rw [hi] at hinner
    split
    · rename_i hclose
      exact lt_length_of_getD_ne (by rw [hclose]; decide)
    · exact hinner
  · rename_i hi
    rw [hi] at hinner
    exact hinner

end RustLua.Token
