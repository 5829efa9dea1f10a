import Mathlib.Algebra.Order.BigOperators.Group.List
import RustLua.Build.Workers
import RustLua.Proofs.Build.Writing
import RustLua.Proofs.Jobs

/-! # Workers compile all sources or none

A schedule interleaves the steps of the jobs in any way. No step changes the tree, so that a
job finds its source as it was, whatever came before. What a step does to its own job is said
once (`JobStep`), and that a job keeps what it has stored in line with what its source
compiles to (`JobSound`) is read off it. When all jobs are done, the answer is that of
compiling the sources in order, and only then something is written. -/
namespace RustLua

namespace Build

open RustLua.Disk (Tree Place)
open RustLua.Disk.Tree (disk run_bind run_readFile)
open RustLua.Jobs (set_eq_of_getElem? sum_map_set_lt exists_ready)

variable {t t' : Tree} {config : Config} {target : Target} {e : EmitError}

/-! ## One source after the other -/

/-- What the text of a source compiles to. -/
def compiledText (config : Config) (target : Target) (file source : Bytes) :
    Except EmitError Bytes :=
  (compile config target source).mapError (.compile file)

/-- What the source at a path compiles to, the tree being as it is. -/
def compiledAt (t : Tree) (config : Config) (target : Target) (file : Bytes) :
    Except EmitError Bytes :=
  match t.textOf file with
  | .error e => .error (.unreadable e)
  | .ok source => compiledText config target file source

@[simp] theorem run_compileFile (file : Bytes) (t : Tree) :
    (compileFile disk config target file).run t = (compiledAt t config target file, t) := by
  simp only [compileFile, run_bind, run_readFile, compiledAt]
  cases t.textOf file <;> rfl

theorem run_compileFiles (files : List Bytes) (t : Tree) :
    (compileFiles disk config target files).run t =
      (settle (files.map (compiledAt t config target)), t) := by
  have hmapM : (files.mapM (compileFile disk config target)).run t =
      (files.map (compiledAt t config target), t) := by
    induction files with
    | nil => rfl
    | cons file files ih =>
      rw [List.mapM_cons, run_bind, run_compileFile, run_bind, ih]
      rfl
  rw [compileFiles, run_bind, hmapM]
  rfl

/-! ## Jobs -/

/-- What the pool holds for one job. -/
structure Slot where
  progress : Progress
  text : Option Bytes := none
  error : Option EmitError := none

/-- What is true at any time of the job of a source that compiles to `outcome`. Of a source
that is read, `compiled` says what its text compiles to. -/
inductive JobSound (compiled : Bytes → Except EmitError Bytes) (outcome : Except EmitError Bytes) :
    Slot → Prop
  | waiting : JobSound compiled outcome ⟨.waiting, none, none⟩
  | started : JobSound compiled outcome ⟨.started, none, none⟩
  | loaded {source : Bytes} (h : outcome = compiled source) :
      JobSound compiled outcome ⟨.loaded source, none, none⟩
  | settled (h : fatal? outcome = none) : JobSound compiled outcome ⟨.settled outcome, none, none⟩
  | stored {text : Bytes} (h : outcome = .ok text) :
      JobSound compiled outcome ⟨.done, some text, none⟩
  | failed {e : EmitError} (h : outcome = .error e) (hfatal : fatal? outcome = none) :
      JobSound compiled outcome ⟨.done, none, some e⟩

/-- One step of a job: what it finds and what it leaves in its slot, and the error that it
ends the program with. -/
inductive JobStep (compiled : Bytes → Except EmitError Bytes) (outcome : Except EmitError Bytes) :
    Slot → Slot → Option EmitError → Prop
  | start {c : Option Bytes} {r : Option EmitError} :
      JobStep compiled outcome ⟨.waiting, c, r⟩ ⟨.started, c, r⟩ none
  | load {source : Bytes} {c : Option Bytes} {r : Option EmitError}
      (h : outcome = compiled source) :
      JobStep compiled outcome ⟨.started, c, r⟩ ⟨.loaded source, c, r⟩ none
  | unreadable {e : Disk.Error} {c : Option Bytes} {r : Option EmitError}
      (h : outcome = .error (.unreadable e)) :
      JobStep compiled outcome ⟨.started, c, r⟩ ⟨.settled (.error (.unreadable e)), c, r⟩ none
  | compile {source : Bytes} {c : Option Bytes} {r : Option EmitError}
      (h : fatal? (compiled source) = none) :
      JobStep compiled outcome ⟨.loaded source, c, r⟩ ⟨.settled (compiled source), c, r⟩ none
  | die {source : Bytes} {c : Option Bytes} {r : Option EmitError} {e : EmitError}
      (h : fatal? (compiled source) = some e) :
      JobStep compiled outcome ⟨.loaded source, c, r⟩ ⟨.loaded source, c, r⟩ (some e)
  | store {text : Bytes} {c : Option Bytes} {r : Option EmitError} :
      JobStep compiled outcome ⟨.settled (.ok text), c, r⟩ ⟨.done, some text, r⟩ none
  | fail {e : EmitError} {c : Option Bytes} {r : Option EmitError} :
      JobStep compiled outcome ⟨.settled (.error e), c, r⟩ ⟨.done, c, some e⟩ none

section Jobs
variable {compiled : Bytes → Except EmitError Bytes} {outcome : Except EmitError Bytes}
  {s s' : Slot} {fatal : Option EmitError}

theorem JobSound.step (hs : JobSound compiled outcome s)
    (h : JobStep compiled outcome s s' fatal) : JobSound compiled outcome s' := by
  cases h with
  | start => cases hs; exact .started
  | load h => cases hs; exact .loaded h
  | unreadable h => cases hs; subst h; exact .settled rfl
  | compile h => cases hs with | loaded ho => subst ho; exact .settled h
  | die => exact hs
  | store => cases hs; exact .stored rfl
  | fail => cases hs with | settled h => exact .failed rfl h

theorem JobStep.fatal_eq (h : JobStep compiled outcome s s' (some e))
    (hs : JobSound compiled outcome s) : fatal? outcome = some e := by
  cases h with
  | die h => cases hs with | loaded ho => rw [ho, h]

/-- The steps that a job has left. -/
def Progress.work : Progress → Nat
  | .waiting => 4
  | .started => 3
  | .loaded _ => 2
  | .settled _ => 1
  | .done => 0

theorem JobStep.work_lt (h : JobStep compiled outcome s s' none) :
    s'.progress.work < s.progress.work := by
  cases h <;> simp [Progress.work]

theorem JobStep.work_pos (h : JobStep compiled outcome s s' fatal) : 0 < s.progress.work := by
  cases h <;> simp [Progress.work]

end Jobs

/-! ## Steps -/

namespace Pool

variable {files schedule : List Bytes} {i : Nat} {p q : Pool}

/-- What the pool holds for the job of source `i`. -/
def slot? (p : Pool) (i : Nat) : Option Slot := do
  return ⟨← p.progress[i]?, ← p.texts[i]?, ← p.errors[i]?⟩

/-- The pool with another slot for source `i`, and what ended the program. -/
def put (p : Pool) (i : Nat) (s : Slot) (fatal : Option EmitError) : Pool :=
  ⟨p.progress.set i s.progress, p.texts.set i s.text, p.errors.set i s.error, fatal⟩

theorem slot?_eq_some {s : Slot} : p.slot? i = some s ↔ p.progress[i]? = some s.progress ∧
    p.texts[i]? = some s.text ∧ p.errors[i]? = some s.error := by
  cases s
  simp only [slot?, bind, Option.bind_eq_some_iff, pure, Option.some.injEq, Slot.mk.injEq]
  grind

theorem slot?_put {s s' : Slot} (h : p.slot? i = some s) (fatal : Option EmitError) :
    (p.put i s' fatal).slot? i = some s' := by
  obtain ⟨hp, hc, hr⟩ := slot?_eq_some.mp h
  simp only [List.getElem?_eq_some_iff] at hp hc hr
  obtain ⟨⟨hp, -⟩, ⟨hc, -⟩, ⟨hr, -⟩⟩ := And.intro hp (And.intro hc hr)
  exact slot?_eq_some.mpr ⟨List.getElem?_set_self hp, List.getElem?_set_self hc,
    List.getElem?_set_self hr⟩

theorem slot?_put_ne {j : Nat} (hne : i ≠ j) (s : Slot) (fatal : Option EmitError) :
    (p.put i s fatal).slot? j = p.slot? j := by
  simp only [slot?, put, List.getElem?_set_ne hne]

/-- What holds of the pool at any time. -/
structure Sound (t : Tree) (config : Config) (target : Target) (files : List Bytes) (p : Pool) :
    Prop where
  progress : p.progress.length = files.length
  texts : p.texts.length = files.length
  errors : p.errors.length = files.length
  job : ∀ i file, files[i]? = some file → ∃ s, p.slot? i = some s ∧
    JobSound (compiledText config target file) (compiledAt t config target file) s
  /-- What ended the program is the error of a source. -/
  fatal : ∀ e, p.fatal = some e → ∃ file ∈ files, fatal? (compiledAt t config target file) = some e

theorem sound_start (t : Tree) (config : Config) (target : Target) (files : List Bytes) :
    (start files.length).Sound t config target files where
  progress := List.length_replicate
  texts := List.length_replicate
  errors := List.length_replicate
  fatal e he := by cases he
  job i file hi := by
    have hlt : i < files.length := (List.getElem?_eq_some_iff.mp hi).1
    exact ⟨⟨.waiting, none, none⟩, by simp [slot?_eq_some, start, hlt], .waiting⟩

/-- A step of the pool is the step of one job in its slot, and leaves the tree alone. -/
theorem jobStep_of_step? (hp : p.Sound t config target files)
    (h : (step? disk config target files i p).run t = (some q, t')) :
    t' = t ∧ p.fatal = none ∧ ∃ file s s', files[i]? = some file ∧ p.slot? i = some s ∧
      JobSound (compiledText config target file) (compiledAt t config target file) s ∧
      JobStep (compiledText config target file) (compiledAt t config target file) s s' q.fatal ∧
      q = p.put i s' q.fatal := by
  unfold step? at h
  split at h
  · rename_i file progress hfatal hfile hprogress
    obtain ⟨⟨progress', c, r⟩, hs, hj⟩ := hp.job i file hfile
    obtain ⟨hprogress', hc, hr⟩ := slot?_eq_some.mp hs
    obtain rfl : progress = progress' := Option.some.inj (hprogress.symm.trans hprogress')
    -- the lists that a step leaves alone are set to what they hold
    have hmove (next : Progress) : p.moveTo i next = p.put i ⟨next, c, r⟩ none := by
      simp only [moveTo, put, set_eq_of_getElem? hc, set_eq_of_getElem? hr, hfatal]
    suffices hstep : t' = t ∧ ∃ s', JobStep (compiledText config target file)
        (compiledAt t config target file) ⟨progress, c, r⟩ s' q.fatal ∧ q = p.put i s' q.fatal by
      obtain ⟨rfl, s', hstep, hq⟩ := hstep
      exact ⟨rfl, hfatal, file, _, s', hfile, hs, hj, hstep, hq⟩
    cases progress with
    | waiting =>
      simp only [advance] at h
      split at h
      · cases h
        rw [hmove]
        exact ⟨rfl, _, .start, rfl⟩
      · cases h
    | started =>
      simp only [advance, run_bind, run_readFile] at h
      rw [compiledAt]
      cases hread : t.textOf file with
      | error e =>
        rw [hread] at h
        cases h
        rw [hmove]
        exact ⟨rfl, _, .unreadable rfl, rfl⟩
      | ok source =>
        rw [hread] at h
        cases h
        rw [hmove]
        exact ⟨rfl, _, .load rfl, rfl⟩
    | loaded source =>
      have hq : (some (p.compiled i (compiledText config target file source)), t) = (some q, t') := h
      obtain ⟨rfl, rfl⟩ : p.compiled i (compiledText config target file source) = q ∧ t = t' := by
        simpa using hq
      refine ⟨rfl, ?_⟩
      unfold compiled
      cases hf : fatal? (compiledText config target file source) with
      | none =>
        rw [hmove]
        exact ⟨_, .compile hf, rfl⟩
      | some e =>
        refine ⟨_, .die hf, ?_⟩
        simp only [put, set_eq_of_getElem? hc, set_eq_of_getElem? hr, set_eq_of_getElem? hprogress]
    | settled outcome =>
      cases h
      cases outcome with
      | ok text =>
        exact ⟨rfl, ⟨.done, some text, r⟩, hfatal ▸ .store,
          by simp [store, moveTo, put, set_eq_of_getElem? hr]⟩
      | error e =>
        exact ⟨rfl, ⟨.done, c, some e⟩, hfatal ▸ .fail,
          by simp [store, moveTo, put, set_eq_of_getElem? hc]⟩
    | done => cases h
  · cases h

theorem Sound.step (hp : p.Sound t config target files)
    (h : (step? disk config target files i p).run t = (some q, t')) :
    q.Sound t config target files := by
  obtain ⟨-, -, file, s, s', hi, hs, hj, hstep, hq⟩ := jobStep_of_step? hp h
  refine ⟨?_, ?_, ?_, fun j other hother => ?_, fun e he => ?_⟩
  · rw [hq]
    simp [put, hp.progress]
  · rw [hq]
    simp [put, hp.texts]
  · rw [hq]
    simp [put, hp.errors]
  · rw [hq]
    by_cases hij : i = j
    · subst hij
      obtain rfl : file = other := Option.some.inj (hi.symm.trans hother)
      exact ⟨s', slot?_put hs _, hj.step hstep⟩
    · obtain ⟨s₁, hs₁, hj₁⟩ := hp.job j other hother
      exact ⟨s₁, (slot?_put_ne hij _ _).trans hs₁, hj₁⟩
  · rw [he] at hstep
    exact ⟨file, List.mem_of_getElem? hi, hstep.fatal_eq hj⟩

/-- A run is a step and the rest of the run. -/
theorem run?_cons {schedule : List Nat}
    (h : (run? disk config target files (i :: schedule) p).run t = (some q, t')) :
    ∃ p₁ t₁, (step? disk config target files i p).run t = (some p₁, t₁) ∧
      (run? disk config target files schedule p₁).run t₁ = (some q, t') := by
  simp only [run?, run_bind] at h
  generalize hstep : (step? disk config target files i p).run t = next at h
  obtain ⟨next, t₁⟩ := next
  cases next with
  | none => cases h
  | some p₁ => exact ⟨p₁, t₁, rfl, h⟩

/-- Whatever the schedule, the pool stays sound and the tree as it is. -/
theorem Sound.run {schedule : List Nat} (hp : p.Sound t config target files)
    (h : (run? disk config target files schedule p).run t = (some q, t')) :
    q.Sound t config target files ∧ t' = t := by
  induction schedule generalizing p with
  | nil =>
    cases h
    exact ⟨hp, rfl⟩
  | cons i schedule ih =>
    obtain ⟨p₁, t₁, hstep, hrest⟩ := run?_cons h
    obtain ⟨rfl, -⟩ := jobStep_of_step? hp hstep
    exact ih (hp.step hstep) hrest

/-! ## The end of all schedules -/

/-- The steps that are left at most. -/
def work (p : Pool) : Nat :=
  if p.fatal.isSome then 0 else (p.progress.map Progress.work).sum

theorem work_lt (hp : p.Sound t config target files)
    (h : (step? disk config target files i p).run t = (some q, t')) : q.work < p.work := by
  obtain ⟨-, hfatal, file, s, s', hi, hs, hj, hstep, hq⟩ := jobStep_of_step? hp h
  have hprogress := (slot?_eq_some.mp hs).1
  have hnext : q.progress = p.progress.set i s'.progress := by rw [hq]; rfl
  unfold work
  rw [hfatal]
  cases hf : q.fatal with
  | none =>
    rw [hf] at hstep
    rw [hnext]
    have hle (s : Progress) : s.work ≤ s.work + 0 := Nat.le_refl _
    simpa using sum_map_set_lt hle hprogress hstep.work_lt
  | some e =>
    refine Nat.lt_of_lt_of_le hstep.work_pos (List.le_sum_of_mem ?_)
    exact List.mem_map_of_mem (List.mem_of_getElem? hprogress)

/-- No schedule has more steps than there is work. -/
theorem length_add_work_le {schedule : List Nat} (hp : p.Sound t config target files)
    (h : (run? disk config target files schedule p).run t = (some q, t')) :
    schedule.length + q.work ≤ p.work := by
  induction schedule generalizing p with
  | nil =>
    cases h
    simp
  | cons i schedule ih =>
    obtain ⟨p₁, t₁, hstep, hrest⟩ := run?_cons h
    obtain ⟨rfl, -⟩ := jobStep_of_step? hp hstep
    have hlt := work_lt hp hstep
    have hle := ih (hp.step hstep) hrest
    simp only [List.length_cons]
    omega

theorem work_start (n : Nat) : (start n).work = 4 * n := by
  simp [work, start, Progress.work, Nat.mul_comm]

/-- A job that is started and not done has a step. -/
theorem exists_step_of_underWay (hp : p.Sound t config target files) (hfatal : p.fatal = none)
    {progress : Progress} (hi : p.progress[i]? = some progress)
    (hw : progress.isWaiting = false) (hd : progress.isDone = false) :
    ∃ q, (step? disk config target files i p).run t = (some q, t) := by
  have hlt : i < files.length := hp.progress ▸ (List.getElem?_eq_some_iff.mp hi).1
  unfold step?
  rw [hfatal, List.getElem?_eq_getElem hlt, hi]
  cases progress with
  | waiting => cases hw
  | started =>
    simp only [advance, run_bind, run_readFile]
    cases t.textOf files[i] <;> exact ⟨_, rfl⟩
  | done => cases hd
  | _ => exact ⟨_, rfl⟩

/-- A pool that is not finished is never stuck. -/
theorem exists_step (hp : p.Sound t config target files) (h : p.isFinished = false) :
    ∃ i q, (step? disk config target files i p).run t = (some q, t) := by
  obtain ⟨hfatal, hopen⟩ : p.fatal = none ∧ ∃ s ∈ p.progress, s.isDone = false := by
    simpa [isFinished] using h
  obtain ⟨i, s, hs, ⟨hw, hd⟩ | ⟨hw, hbefore, hidle⟩⟩ := exists_ready hopen
  · exact ⟨i, exists_step_of_underWay hp hfatal hs hw hd⟩
  · have hlt : i < files.length := hp.progress ▸ (List.getElem?_eq_some_iff.mp hs).1
    have hcan : p.canStart (max config.workers.toNat 1) i = true := by
      simp [canStart, underWay, hbefore, hidle]
    cases s with
    | waiting =>
      refine ⟨i, p.moveTo i .started, ?_⟩
      unfold step?
      rw [hfatal, List.getElem?_eq_getElem hlt, hs]
      simp only [advance, hcan, if_true]
      rfl
    | _ => cases hw

/-! ## The answer -/

/-- The error of an outcome. -/
def errorOf? : Except EmitError Bytes → Option EmitError
  | .ok _ => none
  | .error e => some e

theorem mapM_id_eq (outcomes : List (Except EmitError Bytes)) :
    outcomes.mapM id = match outcomes.findSome? errorOf? with
      | some e => .error e
      | none => .ok (outcomes.filterMap Except.toOption) := by
  induction outcomes with
  | nil => rfl
  | cons outcome outcomes ih =>
    rw [List.mapM_cons, ih]
    cases outcome with
    | error e => rfl
    | ok text =>
      simp only [List.findSome?_cons, errorOf?, List.filterMap_cons, Except.toOption]
      cases outcomes.findSome? errorOf? <;> rfl

/-- What a job leaves behind when all are done. -/
theorem Sound.leaves (hp : p.Sound t config target files) (hfatal : p.fatal = none)
    (h : p.isFinished = true) {file : Bytes} (hi : files[i]? = some file) :
    p.texts[i]? = some (compiledAt t config target file).toOption ∧
      p.errors[i]? = some (errorOf? (compiledAt t config target file)) ∧
      fatal? (compiledAt t config target file) = none := by
  have hall : p.progress.all Progress.isDone = true := by simpa [isFinished, hfatal] using h
  obtain ⟨⟨progress, c, r⟩, hs, hj⟩ := hp.job i file hi
  obtain ⟨hprogress, hc, hr⟩ := slot?_eq_some.mp hs
  have hdone : progress.isDone = true := List.all_eq_true.mp hall _ (List.mem_of_getElem? hprogress)
  rw [hc, hr]
  cases hj with
  | stored ho => rw [ho]; exact ⟨rfl, rfl, rfl⟩
  | failed ho hf => exact ⟨by rw [ho]; rfl, by rw [ho]; rfl, hf⟩
  | _ => cases hdone

/-- A finished pool has the answer of compiling the sources one after the other, unless the
program ended before. -/
theorem Sound.answer_eq (hp : p.Sound t config target files) (hfatal : p.fatal = none)
    (h : p.isFinished = true) :
    p.answer = settle (files.map (compiledAt t config target)) := by
  have htexts : p.texts = files.map fun file => (compiledAt t config target file).toOption := by
    refine List.ext_getElem? fun i => ?_
    cases hi : files[i]? with
    | some file => rw [(hp.leaves hfatal h hi).1, List.getElem?_map, hi]; rfl
    | none =>
      rw [List.getElem?_map, hi, Option.map_none, List.getElem?_eq_none_iff, hp.texts]
      exact List.getElem?_eq_none_iff.mp hi
  have herrors : p.errors = files.map fun file => errorOf? (compiledAt t config target file) := by
    refine List.ext_getElem? fun i => ?_
    cases hi : files[i]? with
    | some file => rw [(hp.leaves hfatal h hi).2.1, List.getElem?_map, hi]; rfl
    | none =>
      rw [List.getElem?_map, hi, Option.map_none, List.getElem?_eq_none_iff, hp.errors]
      exact List.getElem?_eq_none_iff.mp hi
  have hnone : (files.map (compiledAt t config target)).findSome? fatal? = none := by
    simp only [List.findSome?_eq_none_iff, List.mem_map, forall_exists_index, and_imp,
      forall_apply_eq_imp_iff₂]
    intro file hfile
    obtain ⟨i, hi⟩ := List.getElem?_of_mem hfile
    exact (hp.leaves hfatal h hi).2.2
  rw [answer, hfatal, settle, hnone, mapM_id_eq, htexts, herrors]
  simp only [List.findSome?_map, List.filterMap_map]
  rfl

end Pool

/-! ## The sources -/

variable {input output : Bytes} {sources : Sources} {result : Except EmitError (List Bytes)}

/-- Looking for files changes nothing, and finds the root or what is below it. -/
theorem run_searched (t : Tree) (root : Bytes) :
    ∃ r, (searched disk root).run t = (r, t) ∧ ∀ files, r = .ok files → ∀ file ∈ files,
      file = root ∨ ∃ rest, file = Path.join root rest := by
  simp only [searched, run_bind, Tree.run_kind]
  cases t.kind root with
  | error fault => exact ⟨_, rfl, fun files h => by cases h⟩
  | ok kind =>
    cases kind with
    | file =>
      refine ⟨_, rfl, fun files h file hfile => .inl ?_⟩
      cases h
      exact List.mem_singleton.mp hfile
    | directory =>
      refine ⟨_, rfl, fun files h file hfile => .inr ?_⟩
      obtain ⟨place, -, h⟩ := bind_eq_ok.mp (mapError_eq_ok.mp h)
      obtain ⟨kind, -, h⟩ := bind_eq_ok.mp h
      cases kind with
      | file => cases h
      | directory =>
        cases h
        obtain ⟨f, -, rfl⟩ := List.mem_map.mp hfile
        exact ⟨_, rfl⟩

/-- The sources are sorted by their paths, are below the root and have the extension of
sources. -/
theorem discover_eq_ok (h : (discover disk input).run t = (.ok sources, t')) :
    sources.files.Pairwise (· ≤ ·) ∧ sources.root = Path.clean input ∧
      ∀ file ∈ sources.files, Path.extension file = sourceExtension ∧
        (file = sources.root ∨ ∃ rest, file = Path.join sources.root rest) := by
  obtain ⟨r, hr, hbelow⟩ := run_searched t (Path.clean input)
  simp only [discover, run_bind, hr] at h
  cases r with
  | error e => cases h
  | ok files =>
    simp only at h
    split at h
    · cases h
    · cases h
      refine ⟨?_, rfl, fun file hfile => ?_⟩
      · refine (List.pairwise_mergeSort (fun a b c => ?_) (fun a b => ?_) _).imp of_decide_eq_true
        · simpa using List.le_trans
        · simpa using List.le_total a b
      · obtain ⟨hfile, hext⟩ := List.mem_filter.mp (List.mem_mergeSort.mp hfile)
        exact ⟨by simpa using hext, hbelow files rfl file hfile⟩

/-- Sources that come in order are found as they are. -/
theorem run_discover {files : List Bytes}
    (h : (searched disk (Path.clean input)).run t = (.ok files, t)) (hne : files ≠ [])
    (hext : ∀ file ∈ files, Path.extension file = sourceExtension)
    (hsorted : files.Pairwise (· ≤ ·)) :
    (discover disk input).run t = (.ok ⟨Path.clean input, files⟩, t) := by
  have hkept : (files.filter fun f => Path.extension f = sourceExtension) = files :=
    List.filter_eq_self.mpr (by simpa using hext)
  have hempty : files.isEmpty = false := by simpa using hne
  have hsame : files.mergeSort = files :=
    List.mergeSort_of_pairwise (hsorted.imp fun hle => decide_eq_true hle)
  simp only [discover, run_bind, h, hkept, hempty, hsame]
  rfl

/-! ## All or nothing -/

/-- The paths that the outputs of sources go to. -/
def Sources.paths (sources : Sources) (config : Config) (target : Target) (output : Bytes) :
    List Bytes :=
  sources.files.map (outputPath sources.root (if output.isEmpty then sources.root else output)
    (target.extension config))

/-- What compiles is written, up to the first output that cannot be. -/
theorem run_write {texts : List Bytes} (hlength : texts.length = sources.files.length)
    (h : (sources.write disk config target output (.ok texts)).run t = (result, t')) :
    (result = .ok (sources.paths config target output) ∧
      t'.textAt? = updated t ((sources.paths config target output).zip texts)) ∨
    ∃ e k, result = .error e ∧ e.ofWriting = true ∧ k < sources.files.length ∧
      t'.textAt? = updated t (((sources.paths config target output).zip texts).take k) := by
  have hpaths : (sources.outputs config target output texts).map (·.1) =
      sources.paths config target output :=
    List.map_fst_zip (by simp [hlength])
  have hcount : (sources.outputs config target output texts).length = sources.files.length := by
    simp [Sources.outputs, hlength]
  simp only [Sources.write, run_bind, hpaths] at h
  generalize hwrite : (writeOutputs disk (sources.outputs config target output texts)).run t =
    written at h
  obtain ⟨written, t₁⟩ := written
  obtain ⟨rfl, htext⟩ | ⟨e, k, rfl, he, hk, htext⟩ := textAt?_writeOutputs hwrite
  · cases h
    exact .inl ⟨rfl, htext⟩
  · cases h
    exact .inr ⟨e, k, rfl, he, hcount ▸ hk, htext⟩

theorem run_emitDirectory (h : (discover disk input).run t = (.ok sources, t)) :
    (emitDirectory disk config target input output).run t =
      (sources.write disk config target output
        (settle (sources.files.map (compiledAt t config target)))).run t := by
  rw [emitDirectory, run_bind, h]
  change StateT.run (compileFiles disk config target sources.files >>=
    sources.write disk config target output) t = _
  rw [run_bind, run_compileFiles]

/-- A schedule that has an answer runs the jobs to their end, and then writes. -/
theorem run_emitScheduled {schedule : List Nat} (h : (discover disk input).run t = (.ok sources, t))
    (hrun : (emitScheduled disk config target input output schedule).run t = (some result, t')) :
    ∃ p : Pool, p.Sound t config target sources.files ∧ p.isFinished = true ∧
      (sources.write disk config target output p.answer).run t = (result, t') := by
  simp only [emitScheduled, run_bind, h] at hrun
  generalize hp : (Pool.run? disk config target sources.files schedule
    (.start sources.files.length)).run t = out at hrun
  obtain ⟨out, t₁⟩ := out
  cases out with
  | none => cases hrun
  | some p =>
    obtain ⟨hsound, rfl⟩ := (Pool.sound_start t config target sources.files).run hp
    simp only at hrun
    split at hrun
    · rename_i hfinished
      generalize hwrite : (sources.write disk config target output p.answer).run t₁ = out at *
      rw [← bind_pure_comp, run_bind, hwrite] at hrun
      cases hrun
      exact ⟨p, hsound, hfinished, hwrite⟩
    · cases hrun

/-- A schedule that runs the jobs to their end has an answer. -/
theorem exists_emitScheduled {schedule : List Nat} {p : Pool}
    (h : (discover disk input).run t = (.ok sources, t))
    (hrun : (Pool.run? disk config target sources.files schedule
      (.start sources.files.length)).run t = (some p, t')) (hfinished : p.isFinished = true) :
    ∃ result t₁,
      (emitScheduled disk config target input output schedule).run t = (some result, t₁) := by
  simp only [emitScheduled, run_bind, h, hrun, hfinished, if_true]
  exact ⟨_, _, rfl⟩

/-- What a build may do to a tree `t`, given what its sources compile to and the paths that
their outputs go to. -/
structure AllOrNothing (t : Tree) (outcomes : List (Except EmitError Bytes)) (paths : List Bytes)
    (result : Except EmitError (List Bytes)) (t' : Tree) : Prop where
  /-- A source that cannot be cut into tokens ends the program. -/
  fatal : (∃ o ∈ outcomes, fatal? o ≠ none) → t' = t ∧ ∃ e, result = .error e ∧ e.fault? ≠ none
  /-- The error is that of the first source that fails. -/
  failed : (∀ o ∈ outcomes, fatal? o = none) → ∀ (before : List Bytes) e after,
    outcomes = before.map .ok ++ .error e :: after → t' = t ∧ result = .error e
  written : ∀ texts : List Bytes, outcomes = texts.map .ok → ∀ written, result = .ok written →
    written = paths ∧ t'.textAt? = updated t (paths.zip texts)
  /-- An output that cannot be written is the only other error. -/
  stopped : ∀ texts : List Bytes, outcomes = texts.map .ok → ∀ e, result = .error e →
    e.ofWriting = true ∧ ∃ k < paths.length, t'.textAt? = updated t ((paths.zip texts).take k)

theorem fatal?_eq_some {o : Except EmitError Bytes} (h : fatal? o = some e) :
    o = .error e ∧ e.fault? ≠ none := by
  cases o with
  | ok text => cases h
  | error e' =>
    obtain ⟨hfault, h⟩ := Option.ite_none_right_eq_some.mp h
    cases h
    exact ⟨rfl, Option.isSome_iff_ne_none.mp hfault⟩

theorem settle_of_error {before : List Bytes}
    {after : List (Except EmitError Bytes)}
    (h : ∀ o ∈ before.map Except.ok ++ .error e :: after, fatal? o = none) :
    settle (before.map .ok ++ .error e :: after) = .error e := by
  have hbefore : (before.map Except.ok).findSome? Pool.errorOf? = none := by
    simp [Pool.errorOf?]
  rw [settle, List.findSome?_eq_none_iff.mpr h, Pool.mapM_id_eq, List.findSome?_append, hbefore]
  rfl

theorem settle_map_ok (texts : List Bytes) : settle (texts.map .ok) = .ok texts := by
  have hfatal : (texts.map Except.ok).findSome? fatal? = none := by simp [fatal?]
  have herrors : (texts.map Except.ok).findSome? Pool.errorOf? = none := by simp [Pool.errorOf?]
  rw [settle, hfatal, Pool.mapM_id_eq, herrors]
  simp [List.filterMap_map, Function.comp_def, Except.toOption]

/-- An answer that the outcomes of the sources allow leads to nothing else. -/
theorem allOrNothing {answer : Except EmitError (List Bytes)} {outcomes : List (Except EmitError Bytes)}
    (hlength : outcomes.length = sources.files.length)
    (hfatal : (∃ o ∈ outcomes, fatal? o ≠ none) → ∃ e, answer = .error e ∧ e.fault? ≠ none)
    (hanswer : (∀ o ∈ outcomes, fatal? o = none) → answer = settle outcomes)
    (h : (sources.write disk config target output answer).run t = (result, t')) :
    AllOrNothing t outcomes (sources.paths config target output) result t' := by
  have herror {e : EmitError} (he : answer = .error e) : t' = t ∧ result = .error e := by
    rw [he] at h
    cases h
    exact ⟨rfl, rfl⟩
  have hok {texts : List Bytes} (ho : outcomes = texts.map .ok) :
      texts.length = sources.files.length ∧ answer = .ok texts := by
    subst ho
    exact ⟨by simpa using hlength, (hanswer (by simp [fatal?])).trans (settle_map_ok texts)⟩
  refine ⟨fun hf => ?_, fun hf before e after ho => ?_, fun texts ho written hr => ?_,
    fun texts ho e hr => ?_⟩
  · obtain ⟨e, he, hfault⟩ := hfatal hf
    exact ⟨(herror he).1, e, (herror he).2, hfault⟩
  · refine herror ((hanswer hf).trans ?_)
    subst ho
    exact settle_of_error hf
  · obtain ⟨hlength, rfl⟩ := hok ho
    obtain ⟨rfl, htext⟩ | ⟨e, k, rfl, -⟩ := run_write hlength h
    · cases hr
      exact ⟨rfl, htext⟩
    · cases hr
  · obtain ⟨hlength, rfl⟩ := hok ho
    obtain ⟨rfl, -⟩ | ⟨e, k, rfl, he, hk, htext⟩ := run_write hlength h
    · cases hr
    · cases hr
      exact ⟨he, k, by simpa [Sources.paths] using hk, htext⟩

/-- The answer of a finished pool is one that the outcomes of the sources allow. -/
theorem Pool.Sound.answer_cases {files : List Bytes} {p : Pool}
    (hp : p.Sound t config target files) (h : p.isFinished = true) :
    ((∃ o ∈ files.map (compiledAt t config target), fatal? o ≠ none) →
      ∃ e, p.answer = .error e ∧ e.fault? ≠ none) ∧
    ((∀ o ∈ files.map (compiledAt t config target), fatal? o = none) →
      p.answer = settle (files.map (compiledAt t config target))) := by
  cases hfatal : p.fatal with
  | some e =>
    obtain ⟨file, hfile, he⟩ := hp.fatal e hfatal
    refine ⟨fun _ => ⟨e, by rw [answer, hfatal]; rfl, (fatal?_eq_some he).2⟩, fun hnone => ?_⟩
    rw [hnone _ (List.mem_map_of_mem hfile)] at he
    cases he
  | none =>
    refine ⟨?_, fun _ => hp.answer_eq hfatal h⟩
    rintro ⟨o, ho, hne⟩
    obtain ⟨file, hfile, rfl⟩ := List.mem_map.mp ho
    obtain ⟨i, hi⟩ := List.getElem?_of_mem hfile
    exact absurd (hp.leaves hfatal h hi).2.2 hne

/-- Whatever the order of the workers' steps, a build ends, changes nothing before all sources
are compiled, and then writes all outputs or reports the first source that fails. -/
theorem emitScheduled_all_or_nothing
    (hsources : (discover disk input).run t = (.ok sources, t)) :
    sources.files.Pairwise (· ≤ ·) ∧
    (∀ schedule p t₁, (Pool.run? disk config target sources.files schedule
        (.start sources.files.length)).run t = (some p, t₁) →
      t₁ = t ∧ schedule.length ≤ 4 * sources.files.length ∧
      (p.isFinished = false → ∃ i q,
        (Pool.step? disk config target sources.files i p).run t = (some q, t)) ∧
      (p.isFinished = true → ∃ result t', (emitScheduled disk config target input output
        schedule).run t = (some result, t'))) ∧
    ∀ schedule result t',
      (emitScheduled disk config target input output schedule).run t = (some result, t') →
      AllOrNothing t (sources.files.map (compiledAt t config target))
        (sources.paths config target output) result t' ∧
      ((∀ file ∈ sources.files, fatal? (compiledAt t config target file) = none) →
        (emitDirectory disk config target input output).run t = (result, t')) := by
  refine ⟨(discover_eq_ok hsources).1, fun schedule p t₁ hrun => ?_,
    fun schedule result t' hrun => ?_⟩
  · have hstart := Pool.sound_start t config target sources.files
    obtain ⟨hp, rfl⟩ := hstart.run hrun
    have hlength := Pool.length_add_work_le hstart hrun
    rw [Pool.work_start] at hlength
    exact ⟨rfl, by omega, Pool.exists_step hp, exists_emitScheduled hsources hrun⟩
  · obtain ⟨p, hp, hfinished, hwrite⟩ := run_emitScheduled hsources hrun
    obtain ⟨hfatal, hanswer⟩ := hp.answer_cases hfinished
    refine ⟨allOrNothing (by simp) hfatal hanswer hwrite, fun hnone => ?_⟩
    rw [run_emitDirectory hsources, ← hanswer (by simpa using hnone), hwrite]

/-- A source that compiles and two that do not. -/
def threeSources : Tree where
  files := [(["d", "a.rs"], "fn f()\x7b\x7d"), (["d", "b.rs"], "fn"), (["d", "c.rs"], "use x;")]

/-- The last source fails first; what is reported is the one before it. -/
theorem emitScheduled_all_or_nothing_two_failures :
    (∃ result t', (emitScheduled disk { workers := 3 } .lua "d" []
      [0, 1, 2, 2, 2, 2, 0, 1, 1, 1, 0, 0]).run threeSources = (some result, t')) ∧
    ∀ schedule result t', (emitScheduled disk { workers := 3 } .lua "d" [] schedule).run
        threeSources = (some result, t') → t' = threeSources ∧ ∃ e, result = .error e ∧
      e.message = "d/b.rs: parse error: 1:3: expected IDENT, got end of file (and 4 more)" := by
  have hsources : (discover disk "d").run threeSources =
      (.ok ⟨"d", ["d/a.rs", "d/b.rs", "d/c.rs"]⟩, threeSources) :=
    run_discover (Prod.ext (ok_of_toOption (by decide +kernel)) rfl) (by simp) (by decide +kernel)
      (by decide +kernel)
  obtain ⟨-, hruns, hbuild⟩ := @emitScheduled_all_or_nothing _ { workers := 3 } .lua _ [] _ hsources
  constructor
  · have hdone : ((Pool.run? disk { workers := 3 } .lua ["d/a.rs", "d/b.rs", "d/c.rs"]
        [0, 1, 2, 2, 2, 2, 0, 1, 1, 1, 0, 0] (.start 3)).run threeSources).1.any
          Pool.isFinished = true := by
      decide +kernel
    obtain ⟨p, hp, hfinished⟩ := (Option.any_eq_true _ _).mp hdone
    obtain ⟨-, -, -, hanswer⟩ := hruns _ p _ (Prod.ext hp rfl)
    exact hanswer hfinished
  · intro schedule result t' h
    obtain ⟨hall, -⟩ := hbuild schedule result t' h
    have ha : compiledAt threeSources { workers := 3 } .lua "d/a.rs" = .ok "function f()end;" :=
      ok_of_toOption (by decide +kernel)
    have hb : (Pool.errorOf? (compiledAt threeSources { workers := 3 } .lua "d/b.rs")).map
        EmitError.message =
          some "d/b.rs: parse error: 1:3: expected IDENT, got end of file (and 4 more)" := by
      decide +kernel
    have hnone : ∀ file ∈ (["d/a.rs", "d/b.rs", "d/c.rs"] : List Bytes),
        (fatal? (compiledAt threeSources { workers := 3 } .lua file)).isNone = true := by
      decide +kernel
    obtain ⟨e, he, hmessage⟩ := Option.map_eq_some_iff.mp hb
    cases hfailed : compiledAt threeSources { workers := 3 } .lua "d/b.rs" with
    | ok text =>
      rw [hfailed] at he
      cases he
    | error e' =>
      rw [hfailed] at he
      cases he
      obtain ⟨hsame, hresult⟩ := hall.failed (by simpa using hnone) ["function f()end;"] e
        [compiledAt threeSources { workers := 3 } .lua "d/c.rs"] (by simp [ha, hfailed])
      exact ⟨hsame, e, hresult, hmessage⟩

end Build
end RustLua
