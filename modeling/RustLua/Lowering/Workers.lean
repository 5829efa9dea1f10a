import RustLua.Lowering.Basic

/-!
Lowering the items of a file by several workers at once. Every item is a job. A
job looks up the lowest index that is known to have failed and gives up if that
is below its own; otherwise it lowers its item and stores what came of it. Jobs
start in the order of the items, at most `limit` of them are under way at a time,
and their steps interleave in any order: a schedule lists whose step comes next.
-/

namespace RustLua.Lowering

/-- How far a job is. -/
inductive Progress where
  | waiting
  /-- It is under way and has looked at nothing yet. -/
  | started
  /-- No item before its own was known to have failed when it looked. -/
  | cleared
  /-- Its item is lowered, and what came of it is not stored yet. -/
  | lowered (outcome : Except Rejection Contribution)
  /-- Its rejection is stored, and the lowest failed index is to be brought down. -/
  | failed
  /-- It has seen a failed index above its own, which it is about to replace. -/
  | replacing (seen : Nat)
  | done

def Progress.isWaiting : Progress → Bool
  | .waiting => true
  | _ => false

def Progress.isDone : Progress → Bool
  | .done => true
  | _ => false

/-- The jobs, and what they share. -/
structure Pool where
  progress : List Progress
  results : List (Option Contribution)
  rejections : List (Option Rejection)
  /-- The lowest index that is known to have failed, or the number of items. -/
  firstFailed : Nat

namespace Pool

/-- A pool for so many items, none of which is started. -/
def start (n : Nat) : Pool :=
  ⟨List.replicate n .waiting, List.replicate n none, List.replicate n none, n⟩

/-- The number of jobs that are started and not done. -/
def underWay (p : Pool) : Nat := p.progress.countP fun t => !t.isWaiting && !t.isDone

/-- Can the next job start, all before it being started? -/
def canStart (limit i : Nat) (p : Pool) : Bool :=
  (p.progress.take i).all (!·.isWaiting) && p.underWay < limit

def moveTo (i : Nat) (t : Progress) (p : Pool) : Pool :=
  { p with progress := p.progress.set i t }

/-- Store what came of an item. -/
def store (i : Nat) (p : Pool) : Except Rejection Contribution → Pool
  | .ok c => { p.moveTo i .done with results := p.results.set i (some c) }
  | .error r => { p.moveTo i .failed with rejections := p.rejections.set i (some r) }

/-- One step of a job, if it has one. The lowest failed index is replaced only if it
is still the one that was seen; else the job looks again. -/
def step? (items : List Tree.Item) (limit i : Nat) (p : Pool) : Option Pool := do
  let item ← items[i]?
  match ← p.progress[i]? with
  | .waiting => if p.canStart limit i then some (p.moveTo i .started) else none
  | .started => some (p.moveTo i (if p.firstFailed < i then .done else .cleared))
  | .cleared => some (p.moveTo i (.lowered (lowerItem item)))
  | .lowered outcome => some (p.store i outcome)
  | .failed =>
    some (p.moveTo i (if p.firstFailed ≤ i then .done else .replacing p.firstFailed))
  | .replacing seen =>
    some (if p.firstFailed = seen then { p.moveTo i .done with firstFailed := i }
      else p.moveTo i .failed)
  | .done => none

/-- The steps of a schedule, one after the other. -/
def run? (items : List Tree.Item) (limit : Nat) : List Nat → Pool → Option Pool
  | [], p => some p
  | i :: schedule, p => (p.step? items limit i).bind (run? items limit schedule)

def isFinished (p : Pool) : Bool := p.progress.all Progress.isDone

/-- The rejection with the lowest index, or what the items add to the program. -/
def answer (p : Pool) : Except Rejection (List Contribution) :=
  match p.rejections.findSome? id with
  | some r => .error r
  | none => .ok (p.results.filterMap id)

/-- The program that the jobs add up to. -/
def program (p : Pool) : Except Rejection Ir.Program := do
  return ⟨collect (← p.answer)⟩

end Pool
end RustLua.Lowering
