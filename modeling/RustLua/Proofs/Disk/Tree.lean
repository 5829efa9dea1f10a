import Mathlib.Logic.Function.Basic
import RustLua.Disk.Tree
import RustLua.Proofs.Outcome
import RustLua.Proofs.Path

/-! # What a path leads to, and what writing changes

Walking along a path needs every place on the way to be a directory. Where it gets does not
depend on what the tree holds. A write changes the text at one place; making directories
changes none. -/
namespace RustLua.Disk.Tree

variable {t t' : Tree} {place p : Place} {path text : Bytes} {parts : List Bytes}

/-! ## Walks -/

/-- The place that one part of a path leads to. -/
def placeStep (place : Place) (part : Bytes) : Place :=
  if part.isEmpty || part = Path.here then place
  else if part = Path.up then place.dropLast
  else place ++ [part]

theorem placeStep_up (place : Place) : placeStep place Path.up = place.dropLast := rfl

theorem placeStep_name {part : Bytes} (h : Path.IsName part) (place : Place) :
    placeStep place part = place ++ [part] := by
  obtain ⟨hne, hhere, hup⟩ := h
  simp [placeStep, hne, hhere, hup]

/-- The place that a path leads to, if it leads anywhere. -/
def placeOf (t : Tree) (path : Bytes) : Place := (t.steps path).foldl placeStep []

/-- The steps along a path are those along its front, and the last one. -/
theorem steps_append (t : Tree) {front : Bytes} (hfront : Path.IsFront front) :
    ∃ parts, ∀ s, Ascii.slash ∉ s → t.steps (front ++ s) = parts ++ [s] := by
  obtain ⟨parts, hparts⟩ := Path.split_append hfront
  refine ⟨(if front.headD 0 = Ascii.slash then [] else t.home) ++ parts, fun s hs => ?_⟩
  have hhead : (front ++ s).headD 0 = Ascii.slash ↔ front.headD 0 = Ascii.slash := by
    cases front with
    | cons b front => rfl
    | nil =>
      cases s with
      | nil => rfl
      | cons b s => exact ⟨fun h => absurd (h ▸ List.mem_cons_self) hs, fun h => by cases h⟩
  simp only [steps, hhead, hparts s hs, List.append_assoc]

theorem follow_cons_eq_ok {part : Bytes} :
    t.follow place (part :: parts) = .ok p ↔
      t.kindAt place = .ok .directory ∧ t.follow (placeStep place part) parts = .ok p := by
  have hstep : t.follow (placeStep place part) parts =
      if part.isEmpty || part = Path.here then t.follow place parts
      else if part = Path.up then t.follow place.dropLast parts
      else t.follow (place ++ [part]) parts := by
    unfold placeStep
    split
    · rfl
    · split <;> rfl
  rw [follow, bind_eq_ok, hstep]
  constructor
  · rintro ⟨kind, hkind, h⟩
    cases kind with
    | file => cases h
    | directory => exact ⟨hkind, h⟩
  · rintro ⟨hkind, h⟩
    exact ⟨.directory, hkind, h⟩

theorem follow_eq (h : t.follow place parts = .ok p) :
    p = parts.foldl placeStep place := by
  induction parts generalizing place with
  | nil =>
    cases h
    rfl
  | cons part parts ih => exact ih (follow_cons_eq_ok.mp h).2

theorem follow_of_resolve (h : t.resolve path = .ok p) : t.follow [] (t.steps path) = .ok p := by
  unfold resolve at h
  split at h
  · cases h
  · exact h

theorem resolve_eq_placeOf (h : t.resolve path = .ok p) : p = t.placeOf path :=
  follow_eq (follow_of_resolve h)

theorem follow_append_eq_ok {a b : List Bytes} (h : t.follow place (a ++ b) = .ok p) :
    ∃ q, t.follow place a = .ok q ∧ t.follow q b = .ok p := by
  induction a generalizing place with
  | nil => exact ⟨place, rfl, h⟩
  | cons part a ih =>
    obtain ⟨hkind, hrest⟩ := follow_cons_eq_ok.mp h
    obtain ⟨q, hq, hb⟩ := ih hrest
    exact ⟨q, follow_cons_eq_ok.mpr ⟨hkind, hq⟩, hb⟩

/-- All places above the end of a walk are directories. -/
theorem kindAt_of_follow (h : t.follow place parts = .ok p)
    (habove : ∀ q, q <+: place → q ≠ place → t.kindAt q = .ok .directory) :
    ∀ q, q <+: p → q ≠ p → t.kindAt q = .ok .directory := by
  induction parts generalizing place with
  | nil =>
    cases h
    exact habove
  | cons part parts ih =>
    obtain ⟨hkind, hrest⟩ := follow_cons_eq_ok.mp h
    have hupTo (q : Place) (hq : q <+: place) : t.kindAt q = .ok .directory := by
      by_cases he : q = place
      · rw [he, hkind]
      · exact habove q hq he
    refine ih hrest fun q hq hne => ?_
    unfold placeStep at hq hne
    split at hq
    · exact hupTo q hq
    · split at hq
      · exact hupTo q (hq.trans (List.dropLast_prefix _))
      · rename_i hname hup
        rw [if_neg hname, if_neg hup] at hne
        exact hupTo q ((List.prefix_concat_iff.mp hq).resolve_left hne)

theorem kindAt_of_resolve (h : t.resolve path = .ok p) :
    ∀ q, q <+: p → q ≠ p → t.kindAt q = .ok .directory :=
  kindAt_of_follow (follow_of_resolve h) fun _ hq hne => absurd (List.prefix_nil.mp hq) hne

/-- A path that does not end with a name leads to a directory. -/
theorem isName_of_resolve (h : t.resolve path = .ok p) (hp : t.kindAt p ≠ .ok .directory) :
    Path.IsName (Path.lastPart path) := by
  obtain ⟨front, hfront, hpath, hlast⟩ := Path.exists_front path
  obtain ⟨parts, hparts⟩ := t.steps_append hfront
  have hwalk := follow_of_resolve h
  rw [hpath, hparts _ hlast] at hwalk
  obtain ⟨q, hq, hstep⟩ := follow_append_eq_ok hwalk
  obtain ⟨hkind, hend⟩ := follow_cons_eq_ok.mp hstep
  obtain rfl : placeStep q (Path.lastPart path) = p := Except.ok.inj hend
  have habove := kindAt_of_follow hq fun r hr hne => absurd (List.prefix_nil.mp hr) hne
  refine ⟨fun he => hp ?_, fun he => hp ?_, fun he => hp ?_⟩ <;> rw [he]
  · exact hkind
  · exact hkind
  · change t.kindAt q.dropLast = _
    by_cases hroot : q.dropLast = q
    · rw [hroot, hkind]
    · exact habove _ (List.dropLast_prefix _) hroot

theorem kindAt_eq_directory (h : t.kindAt p = .ok .directory) :
    t.textAt? p = none ∧ t.isDirectory p = true := by
  unfold kindAt at h
  split at h
  · cases h
  · rename_i htext
    split at h
    · rename_i hdirectory
      exact ⟨by simpa using htext, hdirectory⟩
    · cases h

theorem isName_of_read (h : t.read path = .ok text) : Path.IsName (Path.lastPart path) := by
  obtain ⟨p, hp, h⟩ := bind_eq_ok.mp h
  refine isName_of_resolve hp fun hkind => ?_
  rw [(kindAt_eq_directory hkind).1] at h
  cases h

/-- Nothing can be read above what is read. -/
theorem textAt?_above (h : t.read path = .ok text) (hp : p <+: t.placeOf path)
    (hne : p ≠ t.placeOf path) : t.textAt? p = none := by
  obtain ⟨q, hq, -⟩ := bind_eq_ok.mp h
  rw [← resolve_eq_placeOf hq] at hp hne
  exact (kindAt_eq_directory (kindAt_of_resolve hq p hp hne)).1

theorem textAt?_of_read (h : t.read path = .ok text) : t.textAt? (t.placeOf path) = some text := by
  obtain ⟨q, hq, h⟩ := bind_eq_ok.mp h
  rw [← resolve_eq_placeOf hq]
  split at h
  · rename_i hsome
    rw [hsome, Except.ok.inj h]
  · cases h

theorem isName_of_write (h : t.write path text = .ok t') : Path.IsName (Path.lastPart path) := by
  obtain ⟨p, hp, h⟩ := bind_eq_ok.mp h
  refine isName_of_resolve hp fun hkind => ?_
  rw [(kindAt_eq_directory hkind).2] at h
  cases h

/-- Behind a front, the place is the one that the front leads to and the name in it. -/
theorem placeOf_append (t : Tree) {front : Bytes} (hfront : Path.IsFront front) :
    ∃ outer, ∀ s, Ascii.slash ∉ s → Path.IsName s → t.placeOf (front ++ s) = outer ++ [s] := by
  obtain ⟨parts, hparts⟩ := t.steps_append hfront
  refine ⟨parts.foldl placeStep [], fun s hs hname => ?_⟩
  simp [placeOf, hparts s hs, placeStep_name hname]

/-! ## Texts -/

theorem textAt?_put (t : Tree) (place : Place) (text : Bytes) :
    (t.put place text).textAt? = Function.update t.textAt? place (some text) := by
  funext q
  by_cases hq : q = place
  · subst hq
    have hnone : (t.files.filter (·.1 ≠ q)).find? (·.1 = q) = none := by
      simp
    rw [Function.update_self, textAt?, put, List.find?_append, hnone]
    simp
  · have hother : place ≠ q := Ne.symm hq
    have hkept : (t.files.filter (·.1 ≠ place)).find? (·.1 = q) = t.files.find? (·.1 = q) := by
      rw [List.find?_filter]
      congr 1
      funext f
      by_cases hf : f.1 = q <;> simp [hf, hq]
    rw [Function.update_of_ne hq, textAt?, put, List.find?_append, hkept, textAt?]
    simp [hother]

theorem textAt?_of_write (h : t.write path text = .ok t') :
    t'.textAt? = Function.update t.textAt? (t.placeOf path) (some text) := by
  obtain ⟨p, hp, h⟩ := bind_eq_ok.mp h
  split at h
  · cases h
  · cases h
    rw [textAt?_put, resolve_eq_placeOf hp]

/-- Trees with the same files, in which paths start at the same place. -/
def SameFiles (t t' : Tree) : Prop := t'.files = t.files ∧ t'.home = t.home

theorem placeOf_congr (h : t'.home = t.home) : t'.placeOf = t.placeOf := by
  funext path
  rw [placeOf, steps, h]
  rfl

theorem home_of_write (h : t.write path text = .ok t') : t'.home = t.home := by
  obtain ⟨p, -, h⟩ := bind_eq_ok.mp h
  split at h
  · cases h
  · cases h
    rfl

theorem sameFiles_makeDirectory (h : t.makeDirectory path = .ok t') : t.SameFiles t' := by
  obtain ⟨p, -, h⟩ := bind_eq_ok.mp h
  split at h
  · cases h
  · cases h
    exact ⟨rfl, rfl⟩

/-! ## The disk -/

theorem run_bind {α β : Type} (x : StateM Tree α) (f : α → StateM Tree β) (t : Tree) :
    (x >>= f).run t = (f (x.run t).1).run (x.run t).2 := rfl

@[simp] theorem run_kind (path : Bytes) (t : Tree) :
    (disk.kind path).run t = (t.kind path, t) := rfl

@[simp] theorem run_read (path : Bytes) (t : Tree) :
    (disk.read path).run t = (t.read path, t) := rfl

/-- A change that fails leaves the tree as it is. -/
theorem run_update {change : Tree → Except Fault Tree} {r : Except Fault Unit}
    (h : (update change).run t = (r, t')) :
    (r = .ok () ∧ change t = .ok t') ∨ (∃ fault, r = .error fault ∧ t' = t) := by
  rw [update, StateT.run_modifyGet] at h
  cases hchange : change t with
  | ok t₁ =>
    rw [hchange] at h
    cases h
    exact .inl ⟨rfl, rfl⟩
  | error fault =>
    rw [hchange] at h
    cases h
    exact .inr ⟨fault, rfl, rfl⟩

/-- What reading the file at a path gives. -/
def textOf (t : Tree) (path : Bytes) : Except Error Bytes :=
  (t.read path).mapError fun fault =>
    ⟨if fault = .isDirectory then .read else .open, path, fault⟩

/-- Reading does not change a tree. -/
@[simp] theorem run_readFile (path : Bytes) (t : Tree) :
    (disk.readFile path).run t = (t.textOf path, t) := by
  simp only [readFile, run_bind, run_read, textOf]
  cases t.read path with
  | ok text => rfl
  | error fault => cases fault <;> rfl

/-- Making directories leaves all files as they are. -/
theorem sameFiles_makeEach {list : List Bytes} {r : Except Error Unit}
    (h : (makeEach disk list).run t = (r, t')) : t.SameFiles t' := by
  induction list generalizing t with
  | nil =>
    cases h
    exact ⟨rfl, rfl⟩
  | cons beginning longer ih =>
    simp only [makeEach, run_bind, run_kind] at h
    cases hkind : t.kind beginning with
    | ok kind =>
      rw [hkind] at h
      cases kind with
      | directory => exact ih h
      | file =>
        cases h
        exact ⟨rfl, rfl⟩
    | error fault =>
      rw [hkind] at h
      simp only [run_bind] at h
      generalize hmake : (disk.makeDirectory beginning).run t = made at h
      obtain ⟨made, t₁⟩ := made
      obtain ⟨rfl, hchange⟩ | ⟨fault, rfl, rfl⟩ := run_update hmake
      · obtain ⟨hfiles, hhome⟩ := sameFiles_makeDirectory hchange
        obtain ⟨hfiles', hhome'⟩ := ih h
        exact ⟨hfiles'.trans hfiles, hhome'.trans hhome⟩
      · cases h
        exact ⟨rfl, rfl⟩

end RustLua.Disk.Tree
