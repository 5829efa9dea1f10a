import RustLua.Build.Emit

/-!
Compiling the sources of a directory by several workers at once. Every source is a
job: it is read, compiled, and what came of it is stored. Jobs start in the order of
the sources, at most `limit` of them are under way at a time, and their steps
interleave in any order: a schedule lists whose step comes next. A source that cannot
be cut into tokens ends the program, and with it all jobs. Outputs are written when
all jobs are done.
-/

namespace RustLua.Build

/-- How far a job is. -/
inductive Progress where
  | waiting
  | started
  /-- Its source is read. -/
  | loaded (source : Bytes)
  /-- What came of its source is not stored yet. -/
  | settled (outcome : Except EmitError Bytes)
  | done

def Progress.isWaiting : Progress → Bool
  | .waiting => true
  | _ => false

def Progress.isDone : Progress → Bool
  | .done => true
  | _ => false

/-- The jobs, and what they share. -/
structure Pool where
  progress : List Progress
  texts : List (Option Bytes)
  errors : List (Option EmitError)
  /-- What ended the program. -/
  fatal : Option EmitError := none

namespace Pool

/-- A pool for so many sources, none of which is started. -/
def start (n : Nat) : Pool where
  progress := List.replicate n .waiting
  texts := List.replicate n none
  errors := List.replicate n none

/-- The number of jobs that are started and not done. -/
def underWay (p : Pool) : Nat := p.progress.countP fun t => !t.isWaiting && !t.isDone

/-- Can the next job start, all before it being started? -/
def canStart (limit i : Nat) (p : Pool) : Bool :=
  (p.progress.take i).all (!·.isWaiting) && p.underWay < limit

def moveTo (i : Nat) (t : Progress) (p : Pool) : Pool :=
  { p with progress := p.progress.set i t }

/-- A source is compiled, or ends the program. -/
def compiled (i : Nat) (outcome : Except EmitError Bytes) (p : Pool) : Pool :=
  match fatal? outcome with
  | some e => { p with fatal := some e }
  | none => p.moveTo i (.settled outcome)

/-- Store what came of a source. -/
def store (i : Nat) (p : Pool) : Except EmitError Bytes → Pool
  | .ok text => { p.moveTo i .done with texts := p.texts.set i (some text) }
  | .error e => { p.moveTo i .done with errors := p.errors.set i (some e) }

/-- Is there nothing left to do? -/
def isFinished (p : Pool) : Bool := p.fatal.isSome || p.progress.all Progress.isDone

/-- The error that ended the program, the first one in the order of the sources, or the
texts that all sources compile to. -/
def answer (p : Pool) : Except EmitError (List Bytes) :=
  match p.fatal <|> p.errors.findSome? id with
  | some e => .error e
  | none => .ok (p.texts.filterMap id)

section Steps

variable {m : Type → Type} [Monad m] (disk : Disk m) (config : Config) (target : Target)
  (files : List Bytes)

/-- One step of the job of a source. -/
def advance (i : Nat) (file : Bytes) (p : Pool) : Progress → m (Option Pool)
  | .waiting =>
    let limit := max config.workers.toNat 1
    return if p.canStart limit i then some (p.moveTo i .started) else none
  | .started => do
    match ← disk.readFile file with
    | .error e => return some (p.moveTo i (.settled (.error (.unreadable e))))
    | .ok source => return some (p.moveTo i (.loaded source))
  | .loaded source =>
    return some (p.compiled i ((compile config target source).mapError (.compile file)))
  | .settled outcome => return some (p.store i outcome)
  | .done => return none

/-- One step of a job, if it has one. -/
def step? (i : Nat) (p : Pool) : m (Option Pool) :=
  match p.fatal, files[i]?, p.progress[i]? with
  | none, some file, some t => advance disk config target i file p t
  | _, _, _ => return none

/-- The steps of a schedule, one after the other. -/
def run? : List Nat → Pool → m (Option Pool)
  | [], p => return some p
  | i :: schedule, p => do
    match ← step? disk config target files i p with
    | some q => run? schedule q
    | none => return none

end Steps

end Pool

/-- Compile the sources of a directory by workers whose steps come in the order of a
schedule. There is no answer if it lists a step that a job does not have, or leaves one out. -/
def emitScheduled {m : Type → Type} [Monad m] (disk : Disk m) (config : Config) (target : Target)
    (input output : Bytes) (schedule : List Nat) : m (Option (Except EmitError (List Bytes))) := do
  match ← discover disk input with
  | .error e => return some (.error e)
  | .ok sources =>
    match ← Pool.run? disk config target sources.files schedule (.start sources.files.length) with
    | none => return none
    | some p =>
      if p.isFinished then some <$> sources.write disk config target output p.answer
      else return none

end RustLua.Build
