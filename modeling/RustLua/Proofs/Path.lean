import Mathlib.Data.List.TakeWhile
import RustLua.Path

/-! # The last part of a path

A path is a front, which is empty or ends with a slash, and its last part, which has no slash.
The extension is an end of the last part. Cleaning keeps a last part that is a name. -/
namespace RustLua

namespace Bytes

variable {separator : UInt8}

theorem splitOnByte_ne_nil (separator : UInt8) (text : Bytes) : splitOnByte separator text ≠ [] := by
  cases text with
  | nil => simp [splitOnByte]
  | cons b rest =>
    rw [splitOnByte]
    split
    · simp
    · split <;> simp

theorem splitOnByte_of_notMem {text : Bytes} (h : separator ∉ text) :
    splitOnByte separator text = [text] := by
  induction text with
  | nil => rfl
  | cons b rest ih =>
    obtain ⟨hb, hrest⟩ := not_or.mp (List.mem_cons.not.mp h)
    simp only [splitOnByte, ih hrest, if_neg (Ne.symm hb)]

theorem splitOnByte_append (separator : UInt8) (a b : Bytes) :
    splitOnByte separator (a ++ separator :: b) =
      splitOnByte separator a ++ splitOnByte separator b := by
  induction a with
  | nil =>
    obtain ⟨part, parts, hb⟩ := List.exists_cons_of_ne_nil (splitOnByte_ne_nil separator b)
    simp [splitOnByte, hb]
  | cons c a ih =>
    obtain ⟨part, parts, ha⟩ := List.exists_cons_of_ne_nil (splitOnByte_ne_nil separator a)
    simp only [List.cons_append, splitOnByte, ih, ha]
    split <;> rfl

theorem notMem_of_mem_splitOnByte {text part : Bytes} (h : part ∈ splitOnByte separator text) :
    separator ∉ part := by
  induction text generalizing part with
  | nil => simp_all [splitOnByte]
  | cons b rest ih =>
    obtain ⟨first, parts, hsplit⟩ :=
      List.exists_cons_of_ne_nil (splitOnByte_ne_nil separator rest)
    rw [hsplit] at ih
    simp only [splitOnByte, hsplit] at h
    split at h <;> grind

/-- A text is cut behind the last occurrence of a byte, if there is one. -/
theorem exists_cut (b : UInt8) (text : Bytes) :
    ∃ before, text = before ++ (text.reverse.takeWhile (· != b)).reverse ∧
      b ∉ (text.reverse.takeWhile (· != b)).reverse ∧ (before = [] ∨ ∃ a, before = a ++ [b]) := by
  refine ⟨(text.reverse.dropWhile (· != b)).reverse, ?_, ?_, ?_⟩
  · rw [← List.reverse_append, List.takeWhile_append_dropWhile, List.reverse_reverse]
  · intro hmem
    have := List.mem_takeWhile_imp (List.mem_reverse.mp hmem)
    simp at this
  · cases hrest : text.reverse.dropWhile (· != b) with
    | nil => exact .inl rfl
    | cons c rest =>
      have hc := List.head_dropWhile_not (· != b)
        (show text.reverse.dropWhile _ ≠ [] by simp [hrest])
      obtain rfl : c = b := by simpa [hrest] using hc
      exact .inr ⟨rest.reverse, by simp⟩

end Bytes

namespace Path

variable {front s path ext : Bytes}

/-! ## Fronts and last parts -/

/-- Nothing, or a text up to a slash. -/
def IsFront (front : Bytes) : Prop := front = [] ∨ ∃ a, front = a ++ [Ascii.slash]

theorem lastPart_append (hfront : IsFront front) (hs : Ascii.slash ∉ s) :
    lastPart (front ++ s) = s := by
  have hall : ∀ b ∈ s.reverse, (b != Ascii.slash) = true := by
    intro b hb
    have hne : b ≠ Ascii.slash := fun he => hs (he ▸ List.mem_reverse.mp hb)
    simpa using hne
  have hstop : front.reverse.takeWhile (· != Ascii.slash) = [] := by
    obtain rfl | ⟨a, rfl⟩ := hfront
    · rfl
    · simp
  rw [lastPart, List.reverse_append, List.takeWhile_append_of_pos hall, hstop]
  simp

theorem lastPart_eq_self (hs : Ascii.slash ∉ s) : lastPart s = s :=
  lastPart_append (.inl rfl) hs

theorem exists_front (path : Bytes) : ∃ front, IsFront front ∧ path = front ++ lastPart path ∧
    Ascii.slash ∉ lastPart path := by
  obtain ⟨front, hpath, hlast, hfront⟩ := Bytes.exists_cut Ascii.slash path
  exact ⟨front, hfront, hpath, hlast⟩

theorem IsFront.append (hfront : IsFront front) (a : Bytes) (ha : IsFront a) :
    IsFront (a ++ front) := by
  obtain rfl | ⟨b, rfl⟩ := hfront
  · simpa using ha
  · exact .inr ⟨a ++ b, by simp⟩

/-- The parts of a path are those of its front, and the last one. -/
theorem split_append (hfront : IsFront front) :
    ∃ parts, ∀ s, Ascii.slash ∉ s →
      Bytes.splitOnByte Ascii.slash (front ++ s) = parts ++ [s] := by
  obtain rfl | ⟨a, rfl⟩ := hfront
  · exact ⟨[], fun s hs => Bytes.splitOnByte_of_notMem hs⟩
  · refine ⟨Bytes.splitOnByte Ascii.slash a, fun s hs => ?_⟩
    rw [List.append_assoc, List.singleton_append, Bytes.splitOnByte_append,
      Bytes.splitOnByte_of_notMem hs]

/-! ## Extensions -/

theorem extension_append_front (hfront : IsFront front) (hs : Ascii.slash ∉ s) :
    extension (front ++ s) = extension s := by
  rw [extension, extension, lastPart_append hfront hs, lastPart_eq_self hs]

/-- The extension is an end of the last part. -/
theorem extension_suffix (path : Bytes) : extension path <:+ lastPart path := by
  simp only [extension]
  split
  · rename_i hdot
    obtain ⟨before, hpart, hlast, rfl | ⟨a, rfl⟩⟩ := Bytes.exists_cut Ascii.dot (lastPart path)
    · rw [List.nil_append] at hpart
      rw [← hpart] at hlast
      exact absurd (by simpa using hdot) hlast
    · exact ⟨a, by simpa using hpart.symm⟩
  · exact List.nil_suffix

/-- There is one dot in an extension, the first byte. -/
theorem slash_notMem_extension (path : Bytes) : Ascii.slash ∉ extension path := by
  obtain ⟨-, -, -, hlast⟩ := exists_front path
  exact fun h => hlast ((extension_suffix path).subset h)

theorem dot_notMem_extension_tail (path : Bytes) : Ascii.dot ∉ (extension path).tail := by
  simp only [extension]
  split
  · obtain ⟨before, -, hlast, -⟩ := Bytes.exists_cut Ascii.dot (lastPart path)
    exact hlast
  · simp

theorem withoutExtension_append (path : Bytes) :
    withoutExtension path ++ extension path = path := by
  obtain ⟨front, -, hpath, -⟩ := exists_front path
  have hsuffix : extension path <:+ path := (extension_suffix path).trans ⟨front, hpath.symm⟩
  rw [withoutExtension, Bytes.dropEnding, if_pos (List.isSuffixOf_iff_suffix.mpr hsuffix)]
  generalize extension path = e at hsuffix
  obtain ⟨stem, rfl⟩ := hsuffix
  simp

theorem lastPart_append_ext (hslash : Ascii.slash ∉ ext) (s : Bytes) :
    lastPart (s ++ ext) = lastPart s ++ ext := by
  obtain ⟨front, hfront, hs, hpart⟩ := exists_front s
  calc lastPart (s ++ ext)
    _ = lastPart (front ++ (lastPart s ++ ext)) := by rw [← List.append_assoc, ← hs]
    _ = lastPart s ++ ext := lastPart_append hfront (by simp [hpart, hslash])

/-- An extension with a dot of its own hides what stands in front of it. -/
theorem extension_append (hdot : Ascii.dot ∈ ext) (hslash : Ascii.slash ∉ ext) (s : Bytes) :
    extension (s ++ ext) = extension ext := by
  have htake (l : Bytes) : (ext.reverse ++ l).takeWhile (· != Ascii.dot) =
      ext.reverse.takeWhile (· != Ascii.dot) := by
    rw [List.takeWhile_append, if_neg]
    intro hlength
    have hall := (List.takeWhile_prefix _).eq_of_length hlength
    have hmem := List.mem_takeWhile_imp (hall ▸ List.mem_reverse.mpr hdot)
    simp at hmem
  simp only [extension, lastPart_append_ext hslash, lastPart_eq_self hslash, List.reverse_append,
    htake]
  simp [hdot]

/-! ## Cleaning -/

/-- A part that is kept, and leads nowhere but to itself. -/
def IsName (part : Bytes) : Prop := part ≠ [] ∧ part ≠ here ∧ part ≠ up

theorem cleanStep_name {rooted : Bool} {before : List Bytes} (h : IsName s) :
    cleanStep rooted before s = s :: before := by
  obtain ⟨hne, hhere, hup⟩ := h
  simp [cleanStep, hne, hhere, hup]

theorem join_cons (part next : Bytes) (parts : List Bytes) :
    Bytes.join "/" (part :: next :: parts) = part ++ Ascii.slash :: Bytes.join "/" (next :: parts) := by
  simp only [Bytes.join, List.intercalate, List.intersperse, List.flatten_cons]
  rfl

/-- A path of parts is its last part behind a front that the other parts make. -/
theorem exists_front_join (parts : List Bytes) : ∃ front, IsFront front ∧
    ∀ last, Bytes.join "/" (parts ++ [last]) = front ++ last := by
  induction parts with
  | nil => exact ⟨[], .inl rfl, fun last => by simp [Bytes.join]⟩
  | cons part parts ih =>
    obtain ⟨front, hfront, hjoin⟩ := ih
    refine ⟨part ++ [Ascii.slash] ++ front, hfront.append _ (.inr ⟨part, rfl⟩), fun last => ?_⟩
    obtain ⟨next, others, hnext⟩ : ∃ next others, parts ++ [last] = next :: others :=
      List.exists_cons_of_ne_nil (by simp)
    rw [List.cons_append, List.append_assoc, ← hjoin, hnext, join_cons]
    simp

/-- Cleaning keeps a last part that is a name. -/
theorem exists_cleanParts (h : IsName (lastPart path)) :
    ∃ before, (cleanParts path).parts = before ++ [lastPart path] := by
  obtain ⟨front, hfront, hpath, hlast⟩ := exists_front path
  obtain ⟨parts, hparts⟩ := split_append hfront
  have hsplit : Bytes.splitOnByte Ascii.slash path = parts ++ [lastPart path] := by
    rw [← hparts _ hlast, ← hpath]
  simp only [cleanParts, hsplit, List.foldl_append, List.foldl_cons, List.foldl_nil,
    cleanStep_name h, List.reverse_cons]
  exact ⟨_, rfl⟩

theorem lastPart_clean (h : IsName (lastPart path)) : lastPart (clean path) = lastPart path := by
  obtain ⟨-, -, -, hlast⟩ := exists_front path
  obtain ⟨before, hclean⟩ := exists_cleanParts h
  obtain ⟨front, hfront, hjoin⟩ := exists_front_join before
  have hroot : IsFront (Ascii.slash :: front) := hfront.append [Ascii.slash] (.inr ⟨[], rfl⟩)
  rw [clean, Parts.text, hclean, hjoin]
  split
  · exact lastPart_append hroot hlast
  · rw [if_neg (by simp)]
    exact lastPart_append hfront hlast

theorem lastPart_join {a b : Bytes} (h : IsName (lastPart b)) : lastPart (join a b) = lastPart b := by
  unfold join
  split
  · split
    · rename_i hb
      obtain rfl : b = [] := by simpa using hb
      rfl
    · exact lastPart_clean h
  · obtain ⟨front, hfront, hb, hlast⟩ := exists_front b
    have hfront' : IsFront (a ++ "/" ++ front) := hfront.append _ (.inr ⟨a, rfl⟩)
    have hpath : lastPart (a ++ "/" ++ b) = lastPart b :=
      calc lastPart (a ++ "/" ++ b)
        _ = lastPart (a ++ "/" ++ front ++ lastPart b) := by rw [List.append_assoc _ front, ← hb]
        _ = lastPart b := lastPart_append hfront' hlast
    rw [lastPart_clean (hpath ▸ h), hpath]

end Path
end RustLua
