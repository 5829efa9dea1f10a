import RustLua.Lowering.Workers
import RustLua.Proofs.Jobs
import RustLua.Proofs.Outcome

/-! # Workers do not change the answer

A schedule interleaves the steps of the jobs in any way. What a step does to its own
job is said once (`JobStep`); all that follows is read off it. A job keeps what it has
stored in line with what its item lowers to, and gives up only behind an item that
fails (`JobSound`). The lowest failed index never falls below the first item that
fails, so that item is lowered under every schedule, and its rejection is found first.
Every step uses up work, and a pool that is not finished has a step: all schedules end. -/
namespace RustLua.Lowering

open RustLua.Tree (Item File)
open RustLua.Jobs (set_eq_of_getElem? sum_map_set_lt exists_ready)

/-- What the pool holds for one job. -/
structure Slot where
  progress : Progress
  result : Option Contribution := none
  rejection : Option Rejection := none

/-- What is true of the job of item `i` at any time. Its item lowers to `outcome`, and
`first` is the lowest index known to have failed. -/
inductive JobSound (outcome : Except Rejection Contribution) (i first : Nat) : Slot → Prop
  | waiting : JobSound outcome i first ⟨.waiting, none, none⟩
  | started : JobSound outcome i first ⟨.started, none, none⟩
  | cleared : JobSound outcome i first ⟨.cleared, none, none⟩
  | lowered : JobSound outcome i first ⟨.lowered outcome, none, none⟩
  | stored {c : Contribution} (h : outcome = .ok c) :
      JobSound outcome i first ⟨.done, some c, none⟩
  | failed {r : Rejection} (h : outcome = .error r) :
      JobSound outcome i first ⟨.failed, none, some r⟩
  | replacing {r : Rejection} {seen : Nat} (h : outcome = .error r) (hs : i < seen) :
      JobSound outcome i first ⟨.replacing seen, none, some r⟩
  | rejected {r : Rejection} (h : outcome = .error r) :
      JobSound outcome i first ⟨.done, none, some r⟩
  | skipped (h : first < i) : JobSound outcome i first ⟨.done, none, none⟩

/-- One step of the job of item `i`: what it finds and what it leaves in its slot, and
the lowest failed index after it. -/
inductive JobStep (outcome : Except Rejection Contribution) (i first : Nat) :
    Slot → Slot → Nat → Prop
  | start {c : Option Contribution} {r : Option Rejection} :
      JobStep outcome i first ⟨.waiting, c, r⟩ ⟨.started, c, r⟩ first
  | skip {c : Option Contribution} {r : Option Rejection} (h : first < i) :
      JobStep outcome i first ⟨.started, c, r⟩ ⟨.done, c, r⟩ first
  | clear {c : Option Contribution} {r : Option Rejection} :
      JobStep outcome i first ⟨.started, c, r⟩ ⟨.cleared, c, r⟩ first
  | lower {c : Option Contribution} {r : Option Rejection} :
      JobStep outcome i first ⟨.cleared, c, r⟩ ⟨.lowered outcome, c, r⟩ first
  | store {a : Contribution} {c : Option Contribution} {r : Option Rejection} :
      JobStep outcome i first ⟨.lowered (.ok a), c, r⟩ ⟨.done, some a, r⟩ first
  | reject {e : Rejection} {c : Option Contribution} {r : Option Rejection} :
      JobStep outcome i first ⟨.lowered (.error e), c, r⟩ ⟨.failed, c, some e⟩ first
  | settle {c : Option Contribution} {r : Option Rejection} :
      JobStep outcome i first ⟨.failed, c, r⟩ ⟨.done, c, r⟩ first
  | look {c : Option Contribution} {r : Option Rejection} (h : i < first) :
      JobStep outcome i first ⟨.failed, c, r⟩ ⟨.replacing first, c, r⟩ first
  | replace {c : Option Contribution} {r : Option Rejection} :
      JobStep outcome i first ⟨.replacing first, c, r⟩ ⟨.done, c, r⟩ i
  | again {seen : Nat} {c : Option Contribution} {r : Option Rejection} (h : first ≠ seen) :
      JobStep outcome i first ⟨.replacing seen, c, r⟩ ⟨.failed, c, r⟩ first

section Jobs
variable {outcome : Except Rejection Contribution} {i first after : Nat} {s s' : Slot}

theorem JobSound.mono (h : JobSound outcome i first s) (hle : after ≤ first) :
    JobSound outcome i after s := by
  cases h with
  | waiting => exact .waiting
  | started => exact .started
  | cleared => exact .cleared
  | lowered => exact .lowered
  | stored h => exact .stored h
  | failed h => exact .failed h
  | replacing h hs => exact .replacing h hs
  | rejected h => exact .rejected h
  | skipped h => exact .skipped (by omega)

/-- The lowest failed index stays, or comes down to a job whose item fails. -/
theorem JobStep.first_cases (h : JobStep outcome i first s s' after)
    (hs : JobSound outcome i first s) :
    after = first ∨ (after = i ∧ i < first ∧ ∃ r, outcome = .error r) := by
  cases h with
  | replace =>
    cases hs with
    | replacing ho hlt => exact .inr ⟨rfl, hlt, _, ho⟩
  | _ => exact .inl rfl

theorem JobStep.first_le (h : JobStep outcome i first s s' after)
    (hs : JobSound outcome i first s) : after ≤ first := by
  rcases h.first_cases hs with rfl | ⟨rfl, hlt, _⟩
  · exact Nat.le_refl _
  · exact Nat.le_of_lt hlt

theorem JobSound.step (hs : JobSound outcome i first s)
    (h : JobStep outcome i first s s' after) : JobSound outcome i after s' := by
  cases h with
  | start => cases hs; exact .started
  | skip hlt => cases hs; exact .skipped hlt
  | clear => cases hs; exact .cleared
  | lower => cases hs; exact .lowered
  | store => cases hs; exact .stored rfl
  | reject => cases hs; exact .failed rfl
  | settle => cases hs with | failed ho => exact .rejected ho
  | look hlt => cases hs with | failed ho => exact .replacing ho hlt
  | replace => cases hs with | replacing ho _ => exact .rejected ho
  | again => cases hs with | replacing ho _ => exact .failed ho

/-- The work that a job has left. One whose view of the lowest failed index is out of
date has to look again. -/
def Progress.work (first : Nat) : Progress → Nat
  | .waiting => 7
  | .started => 6
  | .cleared => 5
  | .lowered _ => 4
  | .failed => 2
  | .replacing seen => if seen = first then 1 else 3
  | .done => 0

/-- Bringing the lowest failed index down makes two steps of work for each other job. -/
theorem Progress.work_le (t : Progress) (first after : Nat) :
    t.work after ≤ t.work first + 2 := by
  cases t with
  | replacing seen =>
    simp only [Progress.work]
    split <;> split <;> omega
  | _ => simp [Progress.work]

theorem JobStep.work_lt (h : JobStep outcome i first s s' after) :
    s'.progress.work after < s.progress.work first := by
  cases h with
  | again hne =>
    have hstale : ¬_ = first := fun he => hne he.symm
    simp [Progress.work, hstale]
  | _ => simp [Progress.work]

end Jobs

namespace Pool

variable {items : List Item} {limit i : Nat} {p q : Pool}

/-- What the pool holds for the job of item `i`. -/
def slot? (p : Pool) (i : Nat) : Option Slot := do
  return ⟨← p.progress[i]?, ← p.results[i]?, ← p.rejections[i]?⟩

/-- The pool with another slot for item `i`, and another lowest failed index. -/
def put (p : Pool) (i : Nat) (s : Slot) (first : Nat) : Pool :=
  ⟨p.progress.set i s.progress, p.results.set i s.result, p.rejections.set i s.rejection, first⟩

theorem slot?_eq_some {s : Slot} : p.slot? i = some s ↔ p.progress[i]? = some s.progress ∧
    p.results[i]? = some s.result ∧ p.rejections[i]? = some s.rejection := by
  cases s
  simp only [slot?, bind, Option.bind_eq_some_iff, pure, Option.some.injEq, Slot.mk.injEq]
  grind

theorem slot?_put {s s' : Slot} (h : p.slot? i = some s) (first : Nat) :
    (p.put i s' first).slot? i = some s' := by
  obtain ⟨hp, hc, hr⟩ := slot?_eq_some.mp h
  simp only [List.getElem?_eq_some_iff] at hp hc hr
  obtain ⟨⟨hp, _⟩, ⟨hc, _⟩, ⟨hr, _⟩⟩ := And.intro hp (And.intro hc hr)
  exact slot?_eq_some.mpr ⟨List.getElem?_set_self hp, List.getElem?_set_self hc,
    List.getElem?_set_self hr⟩

theorem slot?_put_ne {j : Nat} (hne : i ≠ j) (s : Slot) (first : Nat) :
    (p.put i s first).slot? j = p.slot? j := by
  simp only [slot?, put, List.getElem?_set_ne hne]

/-- What holds of the pool at any time. -/
structure Sound (items : List Item) (p : Pool) : Prop where
  progress : p.progress.length = items.length
  results : p.results.length = items.length
  rejections : p.rejections.length = items.length
  job : ∀ i item, items[i]? = some item →
    ∃ s, p.slot? i = some s ∧ JobSound (lowerItem item) i p.firstFailed s
  /-- An index that is known to have failed is that of an item that fails. -/
  first : p.firstFailed = items.length ∨
    ∃ item r, items[p.firstFailed]? = some item ∧ lowerItem item = .error r

theorem sound_start (items : List Item) : (start items.length).Sound items where
  progress := List.length_replicate
  results := List.length_replicate
  rejections := List.length_replicate
  first := .inl rfl
  job i item hi := by
    have hlt : i < items.length := (List.getElem?_eq_some_iff.mp hi).1
    exact ⟨⟨.waiting, none, none⟩, by simp [slot?_eq_some, start, hlt], .waiting⟩

/-! ## Steps -/

/-- A step of the pool is the step of one job in its slot. -/
theorem jobStep_of_step? (hp : p.Sound items) (h : p.step? items limit i = some q) :
    ∃ item s s', items[i]? = some item ∧ p.slot? i = some s ∧
      JobSound (lowerItem item) i p.firstFailed s ∧
      JobStep (lowerItem item) i p.firstFailed s s' q.firstFailed ∧
      q = p.put i s' q.firstFailed := by
  obtain ⟨item, hi, h⟩ := Option.bind_eq_some_iff.mp h
  obtain ⟨t, ht, h⟩ := Option.bind_eq_some_iff.mp h
  obtain ⟨⟨t', c, r⟩, hs, hj⟩ := hp.job i item hi
  obtain ⟨ht', hc, hr⟩ := slot?_eq_some.mp hs
  obtain rfl : t = t' := Option.some.inj (ht.symm.trans ht')
  -- the lists that a step leaves alone are set to what they hold
  have hmove (t' : Progress) : p.moveTo i t' = p.put i ⟨t', c, r⟩ p.firstFailed := by
    simp only [moveTo, put, set_eq_of_getElem? hc, set_eq_of_getElem? hr]
  suffices hstep : ∃ s', JobStep (lowerItem item) i p.firstFailed ⟨t, c, r⟩ s' q.firstFailed ∧
      q = p.put i s' q.firstFailed by
    obtain ⟨s', hstep, hq⟩ := hstep
    exact ⟨item, _, s', hi, hs, hj, hstep, hq⟩
  cases t with
  | waiting =>
    obtain ⟨_, h⟩ := Option.ite_none_right_eq_some.mp h
    cases h
    exact ⟨_, .start, hmove _⟩
  | started =>
    cases h
    by_cases hlt : p.firstFailed < i
    · rw [if_pos hlt]
      exact ⟨_, .skip hlt, hmove _⟩
    · rw [if_neg hlt]
      exact ⟨_, .clear, hmove _⟩
  | cleared =>
    cases h
    exact ⟨_, .lower, hmove _⟩
  | lowered outcome =>
    cases h
    cases outcome with
    | ok a =>
      exact ⟨⟨.done, some a, r⟩, .store, by simp [store, moveTo, put, set_eq_of_getElem? hr]⟩
    | error e =>
      exact ⟨⟨.failed, c, some e⟩, .reject, by simp [store, moveTo, put, set_eq_of_getElem? hc]⟩
  | failed =>
    cases h
    by_cases hle : p.firstFailed ≤ i
    · rw [if_pos hle]
      exact ⟨_, .settle, hmove _⟩
    · rw [if_neg hle]
      exact ⟨_, .look (by omega), hmove _⟩
  | replacing seen =>
    cases h
    by_cases he : p.firstFailed = seen
    · subst he
      rw [if_pos rfl, hmove]
      exact ⟨⟨.done, c, r⟩, .replace, rfl⟩
    · rw [if_neg he]
      exact ⟨_, .again he, hmove _⟩
  | done => cases h

theorem Sound.step (hp : p.Sound items) (h : p.step? items limit i = some q) :
    q.Sound items := by
  obtain ⟨item, s, s', hi, hs, hj, hstep, hq⟩ := jobStep_of_step? hp h
  have hfirst := hstep.first_cases hj
  rw [hq]
  refine ⟨?_, ?_, ?_, ?_, ?_⟩
  · simp [put, hp.progress]
  · simp [put, hp.results]
  · simp [put, hp.rejections]
  · intro j other hother
    by_cases hij : i = j
    · subst hij
      obtain rfl : item = other := Option.some.inj (hi.symm.trans hother)
      exact ⟨s', slot?_put hs _, hj.step hstep⟩
    · obtain ⟨s₁, hs₁, hj₁⟩ := hp.job j other hother
      exact ⟨s₁, (slot?_put_ne hij _ _).trans hs₁, hj₁.mono (hstep.first_le hj)⟩
  · rcases hfirst with he | ⟨he, _, r, hr⟩
    · rw [he]
      exact hp.first
    · rw [he]
      exact .inr ⟨item, r, hi, hr⟩

/-- Whatever the schedule, the pool stays sound. -/
theorem Sound.run {schedule : List Nat} (hp : p.Sound items)
    (h : run? items limit schedule p = some q) : q.Sound items := by
  induction schedule generalizing p with
  | nil => cases h; exact hp
  | cons i schedule ih =>
    obtain ⟨p', hstep, h⟩ := Option.bind_eq_some_iff.mp h
    exact ih (hp.step hstep) h

/-! ## The end of all schedules -/

/-- The work that is left. The jobs that look at the lowest failed index may have to look
again each time it comes down. -/
def work (p : Pool) : Nat :=
  (p.progress.map (Progress.work p.firstFailed)).sum + 2 * p.progress.length * p.firstFailed

theorem work_lt (hp : p.Sound items) (h : p.step? items limit i = some q) :
    q.work < p.work := by
  obtain ⟨item, s, s', hi, hs, hj, hstep, hq⟩ := jobStep_of_step? hp h
  have ht : p.progress[i]? = some s.progress := (slot?_eq_some.mp hs).1
  have hlt := hstep.work_lt
  have hlength : q.progress.length = p.progress.length := by rw [hq]; exact List.length_set
  have hset : q.progress = p.progress.set i s'.progress := by rw [hq]; rfl
  unfold work
  rw [hlength, hset]
  rcases hstep.first_cases hj with he | ⟨_, hdown, _⟩
  · rw [he] at hlt ⊢
    have hle (t : Progress) : t.work p.firstFailed ≤ t.work p.firstFailed + 0 := Nat.le_refl _
    have hsum := sum_map_set_lt hle ht hlt
    omega
  · have hsum := sum_map_set_lt (fun t => t.work_le p.firstFailed q.firstFailed) ht hlt
    have hfall : q.firstFailed + 1 ≤ p.firstFailed := by omega
    have hmul := Nat.mul_le_mul_left (2 * p.progress.length) hfall
    rw [Nat.mul_succ] at hmul
    omega

theorem work_start (n : Nat) : (start n).work = 7 * n + 2 * n * n := by
  simp [work, start, Progress.work, Nat.mul_comm]

/-- No schedule has more steps than there is work. -/
theorem length_add_work_le {schedule : List Nat} (hp : p.Sound items)
    (h : run? items limit schedule p = some q) : schedule.length + q.work ≤ p.work := by
  induction schedule generalizing p with
  | nil => cases h; simp
  | cons i schedule ih =>
    obtain ⟨p', hstep, h⟩ := Option.bind_eq_some_iff.mp h
    have hlt := work_lt hp hstep
    have hrest := ih (hp.step hstep) h
    simp only [List.length_cons]
    omega

/-- A job that is started and not done has a step. -/
theorem exists_step_of_underWay (hp : p.Sound items) {t : Progress}
    (ht : p.progress[i]? = some t) (hw : t.isWaiting = false) (hd : t.isDone = false) :
    ∃ q, p.step? items limit i = some q := by
  have hlt : i < items.length := hp.progress ▸ (List.getElem?_eq_some_iff.mp ht).1
  unfold step?
  rw [List.getElem?_eq_getElem hlt, ht]
  cases t with
  | waiting => cases hw
  | done => cases hd
  | _ => exact ⟨_, rfl⟩

/-- A pool that is not finished is never stuck. -/
theorem exists_step (hp : p.Sound items) (hl : 0 < limit) (h : p.isFinished = false) :
    ∃ i q, p.step? items limit i = some q := by
  have hopen : ∃ t ∈ p.progress, t.isDone = false := by simpa [isFinished] using h
  obtain ⟨i, t, ht, ⟨hw, hd⟩ | ⟨hw, hbefore, hidle⟩⟩ := exists_ready hopen
  · exact ⟨i, exists_step_of_underWay hp ht hw hd⟩
  · have hlt : i < items.length := hp.progress ▸ (List.getElem?_eq_some_iff.mp ht).1
    have hcan : p.canStart limit i = true := by simp [canStart, underWay, hbefore, hidle, hl]
    cases t with
    | waiting =>
      refine ⟨i, p.moveTo i .started, ?_⟩
      unfold step?
      rw [List.getElem?_eq_getElem hlt, ht]
      simp [hcan]
    | _ => cases hw

/-! ## The answer -/

/-- What a job leaves behind when all are done: its item's contribution, its item's
rejection, or nothing behind another item that fails. -/
inductive Leaves (items : List Item) (i : Nat) (outcome : Except Rejection Contribution) :
    Option Contribution → Option Rejection → Prop
  | result {c : Contribution} (h : outcome = .ok c) : Leaves items i outcome (some c) none
  | rejection {r : Rejection} (h : outcome = .error r) : Leaves items i outcome none (some r)
  | nothing {j : Nat} {item : Item} {r : Rejection} (hlt : j < i) (hj : items[j]? = some item)
      (hr : lowerItem item = .error r) : Leaves items i outcome none none

theorem Sound.leaves (hp : p.Sound items) (h : p.isFinished = true) {item : Item}
    (hi : items[i]? = some item) :
    ∃ c r, p.results[i]? = some c ∧ p.rejections[i]? = some r ∧
      Leaves items i (lowerItem item) c r := by
  obtain ⟨⟨t, c, r⟩, hs, hj⟩ := hp.job i item hi
  obtain ⟨ht, hc, hr⟩ := slot?_eq_some.mp hs
  have hdone : t.isDone = true := List.all_eq_true.mp h t (List.mem_of_getElem? ht)
  refine ⟨c, r, hc, hr, ?_⟩
  cases hj with
  | stored ho => exact .result ho
  | rejected ho => exact .rejection ho
  | skipped hlt =>
    rcases hp.first with he | ⟨other, r, hother, hr⟩
    · have := (List.getElem?_eq_some_iff.mp hi).1
      omega
    · exact .nothing hlt hother hr
  | _ => cases hdone

/-- The first rejection is that of the first item that fails; without one, every item has
its contribution. -/
theorem answer_of_leaves {results : List (Option Contribution)}
    {rejections : List (Option Rejection)} {progress : List Progress} {first : Nat}
    (hres : results.length = items.length) (hrej : rejections.length = items.length)
    (h : ∀ i item, items[i]? = some item → ∃ c r, results[i]? = some c ∧
      rejections[i]? = some r ∧ Leaves items i (lowerItem item) c r) :
    answer ⟨progress, results, rejections, first⟩ = lowerItems items := by
  induction items generalizing results rejections with
  | nil =>
    obtain rfl := List.length_eq_zero_iff.mp hres
    obtain rfl := List.length_eq_zero_iff.mp hrej
    rw [lowerItems]
    rfl
  | cons item items ih =>
    obtain ⟨c, results, rfl⟩ := List.exists_cons_of_length_eq_add_one hres
    obtain ⟨r, rejections, rfl⟩ := List.exists_cons_of_length_eq_add_one hrej
    obtain ⟨c', r', hc, hr, hleaves⟩ := h 0 item rfl
    cases hc
    cases hr
    rw [lowerItems]
    cases hleaves with
    | rejection ho => rw [ho]; rfl
    | nothing hlt => omega
    | @result c ho =>
      have hrest : answer ⟨progress, results, rejections, first⟩ = lowerItems items := by
        refine ih (by simpa using hres) (by simpa using hrej) fun i other hi => ?_
        obtain ⟨c₁, r₁, hc₁, hr₁, hl⟩ := h (i + 1) other hi
        refine ⟨c₁, r₁, hc₁, hr₁, ?_⟩
        cases hl with
        | result ho₁ => exact .result ho₁
        | rejection ho₁ => exact .rejection ho₁
        | @nothing j item₁ r hlt hj hr =>
          -- the first item lowers, so the one that fails is behind it
          cases j with
          | zero => cases hj; rw [ho] at hr; cases hr
          | succ j => exact .nothing (by omega) hj hr
      rw [ho, ← hrest]
      unfold answer
      simp only [List.findSome?_cons, id]
      cases rejections.findSome? id <;> rfl

/-- A finished pool has the answer of lowering the items one after the other. -/
theorem Sound.answer_eq (hp : p.Sound items) (h : p.isFinished = true) :
    p.answer = lowerItems items :=
  answer_of_leaves hp.results hp.rejections fun _ _ hi => hp.leaves h hi

/-- Under every schedule of the jobs' steps, with any number of workers, lowering ends
and gives what lowering the items in order gives: the same program or the same rejection.
No schedule is longer than `7 * n + 2 * n * n` steps for `n` items, and one that has not
come to the end can be continued. -/
theorem run?_program_eq_lowerFile {file : File} {schedule : List Nat} (hl : 0 < limit)
    (h : run? file.items limit schedule (start file.items.length) = some p) :
    (p.isFinished = true → p.program = lowerFile file) ∧
    (p.isFinished = false → ∃ i q, p.step? file.items limit i = some q) ∧
    schedule.length ≤ 7 * file.items.length + 2 * file.items.length * file.items.length := by
  have hstart := sound_start file.items
  have hp := hstart.run h
  refine ⟨fun hf => ?_, exists_step hp hl, ?_⟩
  · unfold program lowerFile
    rw [hp.answer_eq hf]
  · have hlength := length_add_work_le hstart h
    rw [work_start] at hlength
    omega

/-- Two items fail, the later one first; the job of the earlier one finds the index it
has seen replaced, and looks again. -/
theorem run?_program_two_failures :
    ∃ p, run? [.fn "f" [] none none [] false ⟨1, 1⟩, .use "a" ⟨2, 1⟩, .use "b" ⟨3, 1⟩] 2
        [0, 0, 0, 0, 1, 2, 1, 2, 1, 2, 1, 2, 2, 1, 2, 1, 1, 1] (start 3) = some p ∧
      p.isFinished = true ∧
      p.program = unsupported ⟨2, 1⟩ (.useDeclaration "a") := by
  let file : File := ⟨[.fn "f" [] none none [] false ⟨1, 1⟩, .use "a" ⟨2, 1⟩, .use "b" ⟨3, 1⟩]⟩
  obtain ⟨p, hp, hf⟩ : ∃ p, run? file.items 2
      [0, 0, 0, 0, 1, 2, 1, 2, 1, 2, 1, 2, 2, 1, 2, 1, 1, 1] (start 3) = some p ∧
        p.isFinished = true :=
    ⟨_, rfl, rfl⟩
  exact ⟨p, hp, hf, (run?_program_eq_lowerFile (by decide) hp).1 hf⟩

end Pool
end RustLua.Lowering
