import RustLua.Proofs.Lua.Gaps

/-! # Rendering with a state

The same text, written by one emitter that goes through a program from front to back. Whether a
value is being written, whether a statement ends its block and how many loops are around are kept
in its state, which is set before a part is written and restored behind it. -/
namespace RustLua.Lua

open Ir (Item Branch Program)

structure Emitter where
  written : Bytes := []
  /-- The loops around, within the function that is being written. -/
  depth : Nat := 0
  inValue : Bool := false
  /-- Does the last statement that was begun end its block? -/
  isLast : Bool := false

abbrev Emit := StateT Emitter (Except Gap) Unit

namespace Emitter

def write (pieces : Pieces) : Emit :=
  modify fun g => { g with written := g.written ++ pieces.text }

def between (front : Pieces) (act : Emit) (back : Pieces) : Emit := do
  write front
  act
  write back

/-- Changes the state for a part, and restores it from what it was before. -/
def bracket (enter : Emitter → Emitter) (restore : Emitter → Emitter → Emitter) (act : Emit) :
    Emit := do
  let saved ← get
  modify enter
  act
  modify (restore saved)

/-- A value, or the statements of a block. -/
def within (inValue : Bool) : Emit → Emit :=
  bracket (fun g => { g with inValue }) fun saved g => { g with inValue := saved.inValue }

def statementOnly (what : String) (act : Emit) : Emit := do
  if (← get).inValue then throw (.usedAsValue what) else act

/-- Parameters and body of a function, which has loops of its own only. -/
def function (params : List Bytes) (body : Emit) : Emit :=
  bracket (fun g => { g with depth := 0 }) (fun saved g => { g with depth := saved.depth }) <|
    between (parenthesized (commaSeparated (params.map fun p => [.name p]))) (within false body)
      [.keyword .endKw]

def endLoop (s : Settings) : Emit := do
  write [.blank, .mark .colons, .name (s.label (← get).depth), .mark .colons, .blank,
    .keyword .endKw, .mark .semicolon]

/-- The rest of a loop behind its head. -/
def loop (s : Settings) (body : Emit) : Emit := do
  write [.blank, .keyword .doKw, .blank]
  bracket (fun g => { g with depth := g.depth + 1 }) (fun _ g => { g with depth := g.depth - 1 }) do
    within false body
    endLoop s

def branch (cond body : Emit) : Emit := do
  between [.blank] (within true cond) [.blank, .keyword .thenKw, .blank]
  within false body

/-- A value that may be left out, and what leads to it. -/
def optional (lead : Pieces) (item : Item) (act : Emit) : Emit :=
  match item with
  | .missing => pure ()
  | _ => do
    write lead
    within true act

def returning (isLast : Bool) (value : Emit) : Emit :=
  if isLast then between [.keyword .returnKw] value [.mark .semicolon]
  else between [.keyword .doKw, .blank, .keyword .returnKw] value
    [.blank, .keyword .endKw, .mark .semicolon]

def wrapped (parens : Bool) (act : Emit) : Emit :=
  if parens then between [.mark .parenOpen] act [.mark .parenClose] else act

/-- Further members of a list. -/
def more : List Emit → Emit
  | [] => pure ()
  | act :: acts => do
    write [.mark .comma]
    act
    more acts

def separated : List Emit → Emit
  | [] => pure ()
  | act :: acts => do
    act
    more acts

def slotValue (values : List Emit) (slot : Int) : Emit :=
  match if slot < 1 then none else values[slot.toNat - 1]? with
  | some value => value
  | none => throw (.slotWithoutValue slot values.length)

/-- A node as a statement, with what is done for it. -/
def statement (isLast : Bool) (item : Item) (visit : Emit) : Emit :=
  match item with
  | .missing => throw .noStatement
  | .call _ _ => between [] (within true visit) [.mark .semicolon]
  | .ident _ | .bool _ | .integer _ | .decimal _ | .string _ | .closure _ _ | .array _
  | .binary _ _ _ | .format _ _ _ =>
    between [.keyword .localKw, .blank, .name "_", .blank, .mark .assign, .blank]
      (within true visit) [.mark .semicolon]
  | _ => do
    modify fun g => { g with isLast }
    visit

mutual

def visit (s : Settings) : Item → Emit
  | .missing => throw .noExpression
  | .function name params body => statementOnly "function definition" <|
    between [.keyword .functionKw, .blank, .name name] (function params (visitBody s true body))
      [.mark .semicolon]
  | .varDecl name value => statementOnly "local declaration" <|
    between [.keyword .localKw, .blank, .name name, .blank, .mark .assign, .blank]
      (within true (visit s value)) [.mark .semicolon]
  | .varSet name value => statementOnly "assignment" <|
    between [.name name, .blank, .mark .assign, .blank] (within true (visit s value))
      [.mark .semicolon]
  | .externs names => statementOnly "extern block" <| write (names.flatMap (externPieces s))
  | .mod name items => statementOnly "module" do
    write (localPieces name [.mark .braceOpen, .mark .braceClose])
    within false (visitBody s false items)
  | .breakLoop => statementOnly "break" do
    if (← get).depth = 0 then throw .breakOutside
    else write [.keyword .breakKw, .mark .semicolon]
  | .continueLoop => statementOnly "continue" do
    let depth := (← get).depth
    if depth = 0 then throw .continueOutside
    else write [.keyword .gotoKw, .blank, .name (s.label depth), .mark .semicolon]
  | .returnValue value => statementOnly "return" do
    returning (← get).isLast (optional [.blank] value (visit s value))
  | .ifElif cond body elifs otherwise => statementOnly "if" do
    write [.keyword .ifKw]
    branch (visit s cond) (visitBody s true body)
    visitElifs s elifs
    visitElse s otherwise
    write [.blank, .keyword .endKw, .mark .semicolon]
  | .whileLoop cond body => statementOnly "while" do
    write [.keyword .whileKw, .blank]
    within true (visit s cond)
    loop s (visitBody s false body)
  | .forRange var min max step body => statementOnly "for" do
    write [.keyword .forKw, .blank, .name var, .blank, .mark .assign, .blank]
    between [] (within true (visit s min)) [.mark .comma]
    within true (visit s max)
    optional [.mark .comma] step (visit s step)
    loop s (visitBody s false body)
  | .forIn var iterated body => statementOnly "for" do
    write [.keyword .forKw, .blank, .name var, .blank, .keyword .inKw, .blank]
    within true (visit s iterated)
    loop s (visitBody s false body)
  | .call func args => do
    wrapped (!isCallable func) (within true (visit s func))
    wrapped true (separated (visitEach s args))
  | .ident name => if name.isEmpty then throw .emptyIdentifier else write [.name name]
  | .bool value => write [.keyword (if value then .trueKw else .falseKw)]
  | .integer n => write (integerPieces n)
  | .decimal d => write (decimalPieces d)
  | .string text => write [.literal (quote text)]
  | .closure params body => do
    write [.keyword .functionKw]
    function params (visitBody s true body)
  | .array elements =>
    between [.mark .braceOpen] (separated (visitEach s elements)) [.mark .braceClose]
  | .binary op lhs rhs => do
    let o ← operatorOf op
    wrapped (needsParens o.level false lhs) (within true (visit s lhs))
    write [.operator o]
    wrapped (needsParens o.level true rhs) (within true (visit s rhs))
  | .format fragments slots values =>
    if fragments.length ≠ slots.length + 1 then
      throw (.fragmentCount fragments.length slots.length)
    else if slots.length < values.length then throw (.valueCount values.length slots.length)
    else between (member "string" "format" ++ [.mark .parenOpen, .literal (template fragments)])
      (more (slots.map (slotValue (visitEach s values)))) [.mark .parenClose]

def visitEach (s : Settings) : List Item → List Emit
  | [] => []
  | item :: items => within true (visit s item) :: visitEach s items

def visitBody (s : Settings) (endsBlock : Bool) : List Item → Emit
  | [] => pure ()
  | item :: items => do
    statement (endsBlock && items.isEmpty) item (visit s item)
    visitBody s endsBlock items

def visitElifs (s : Settings) : List Branch → Emit
  | [] => pure ()
  | .mk cond body :: elifs => do
    write [.blank, .keyword .elseifKw]
    branch (visit s cond) (visitBody s true body)
    visitElifs s elifs

def visitElse (s : Settings) : Option (List Item) → Emit
  | none => pure ()
  | some body => do
    write [.blank, .keyword .elseKw, .blank]
    within false (visitBody s true body)

end

end Emitter

/-- The text that an emitter writes from its initial state. -/
def emit (s : Settings) : Option Program → Except Gap Bytes
  | none => .error .noProgram
  | some program => do
    let (_, g) ← (Emitter.within false (Emitter.visitBody s true program.items)).run {}
    return g.written

namespace Emitter

/-! ## What an emitter writes -/

/-- What is done from a state writes what is rendered, or finds the same gap. Behind it the value
flag and the number of loops are as before. -/
inductive Writes (act : Emit) (g : Emitter) : Except Gap Pieces → Prop
  | gap {e : Gap} (h : act.run g = .error e) : Writes act g (.error e)
  | text {pieces : Pieces} (isLast : Bool)
      (h : act.run g = .ok ((), { g with written := g.written ++ pieces.text, isLast })) :
      Writes act g (.ok pieces)

/-- The same, whatever is written already and whatever the statement before was. -/
def Emits (act : Emit) (depth : Nat) (inValue : Bool) (x : Except Gap Pieces) : Prop :=
  ∀ written isLast, Writes act ⟨written, depth, inValue, isLast⟩ x

variable {s : Settings} {g : Emitter} {act act' : Emit} {x y : Except Gap Pieces} {depth : Nat}
  {inValue : Bool}

theorem Writes.bracket {enter : Emitter → Emitter} {restore : Emitter → Emitter → Emitter}
    (h : Writes act (enter g) x) (hwritten : (enter g).written = g.written)
    (hrestore : ∀ written isLast,
      restore g { enter g with written, isLast } = { g with written, isLast }) :
    Writes (bracket enter restore act) g x := by
  have hrun : (Emitter.bracket enter restore act).run g =
      (do let (_, g') ← act.run (enter g); return ((), restore g g')) := rfl
  cases h with
  | gap h => exact .gap (by rw [hrun, h]; rfl)
  | text isLast h =>
    refine .text isLast (hrun.trans ?_)
    rw [h, ← hrestore, hwritten]
    rfl

/-- The flag of the last statement may be set, or looked at, before anything is written. -/
theorem Writes.begin {isLast : Bool} (h : Writes act { g with isLast } x)
    (hrun : act'.run g = act.run { g with isLast }) : Writes act' g x := by
  cases h with
  | gap h => exact .gap (hrun.trans h)
  | text isLast h => exact .text isLast (hrun.trans h)

theorem emits_write (pieces : Pieces) : Emits (write pieces) depth inValue (pure pieces) :=
  fun _ isLast => .text isLast rfl

theorem emits_pure : Emits (pure ()) depth inValue (pure []) := by
  refine fun written isLast => .text isLast ?_
  rw [Pieces.text, List.flatMap_nil, List.append_nil]
  rfl

theorem emits_throw (e : Gap) : Emits (throw e) depth inValue (.error e) := fun _ _ => .gap rfl

theorem Emits.congr (h : Emits act depth inValue x) (he : x = y) : Emits act depth inValue y :=
  he ▸ h

theorem Emits.seq (h : Emits act depth inValue x) (h' : Emits act' depth inValue y) :
    Emits (do act; act') depth inValue (do return (← x) ++ (← y)) := by
  intro written isLast
  have hfirst := h written isLast
  cases hfirst with
  | gap he =>
    refine .gap ?_
    rw [StateT.run_bind, he]
    rfl
  | @text p isLast' hp =>
    have hrun : (do act; act').run ⟨written, depth, inValue, isLast⟩ =
        act'.run ⟨written ++ p.text, depth, inValue, isLast'⟩ := by
      rw [StateT.run_bind, hp]
      rfl
    have hnext := h' (written ++ p.text) isLast'
    cases hnext with
    | gap h => exact .gap (hrun.trans h)
    | text isLast h =>
      refine .text isLast (hrun.trans (h.trans ?_))
      simp only [Pieces.text, List.flatMap_append, List.append_assoc]

theorem Emits.within {b : Bool} (h : Emits act depth b x) :
    Emits (within b act) depth inValue x :=
  fun written isLast => (h written isLast).bracket rfl fun _ _ => rfl

theorem Emits.between {front back : Pieces} (h : Emits act depth inValue x) :
    Emits (between front act back) depth inValue (do return front ++ (← x) ++ back) := by
  refine ((emits_write front).seq (h.seq (emits_write back))).congr ?_
  simp only [bind_assoc, pure_bind, List.append_assoc]

theorem Emits.function {params : List Bytes} (h : Emits act 0 false x) :
    Emits (function params act) depth inValue (do return functionPieces params (← x)) :=
  fun written isLast => (h.within.between written isLast).bracket rfl fun _ _ => rfl

theorem emits_endLoop : Emits (endLoop s) depth inValue (pure [.blank, .mark .colons,
    .name (s.label depth), .mark .colons, .blank, .keyword .endKw, .mark .semicolon]) :=
  fun _ isLast => .text isLast rfl

theorem Emits.loop (h : Emits act (depth + 1) false x) :
    Emits (loop s act) depth inValue (do return loopPieces s (depth + 1) (← x)) := by
  refine Emits.congr ((emits_write _).seq fun written isLast =>
    (h.within.seq emits_endLoop written isLast).bracket rfl fun _ _ => rfl) ?_
  simp only [bind_assoc, pure_bind, List.append_assoc, loopPieces]

theorem Emits.branch (h : Emits act depth true x) (h' : Emits act' depth false y) :
    Emits (branch act act') depth inValue (do return branchPieces (← x) (← y)) := by
  refine (h.within.between.seq h'.within).congr ?_
  simp only [bind_assoc, pure_bind, branchPieces]

theorem Emits.wrapped (parens : Bool) (h : Emits act depth inValue x) :
    Emits (wrapped parens act) depth inValue
      (do let p ← x; return if parens then parenthesized p else p) := by
  cases parens with
  | true => exact h.between
  | false => exact h.congr (bind_pure x).symm

theorem Emits.optional (lead : Pieces) {item : Item} (h : Emits act depth true x) :
    Emits (optional lead item act) depth inValue
      (do return (← optionalValue item x).toList.flatMap (lead ++ ·)) := by
  unfold Emitter.optional optionalValue
  split
  · exact emits_pure
  · refine ((emits_write _).seq h.within).congr ?_
    simp

theorem Emits.returning {item : Item} (h : Emits act depth true x) (isLast : Bool) :
    Emits (returning isLast (Emitter.optional [.blank] item act)) depth inValue
      (do return returnPieces isLast (← optionalValue item x)) := by
  cases isLast with
  | true | false =>
    refine Emits.congr (h.optional _).between ?_
    simp only [bind_assoc, pure_bind]
    refine bind_congr fun value => ?_
    cases value <;> simp [returnPieces]

/-! ## Nodes -/

/-- A node is visited as it is rendered, as a value and as a statement. -/
structure Simulates (s : Settings) (i : Item) : Prop where
  value (depth : Nat) : Emits (visit s i) depth true (renderItem s .value i)
  statement (depth : Nat) (isLast : Bool) :
    Emits (statement isLast i (visit s i)) depth false (renderItem s (.statement depth isLast) i)

variable {i : Item} {items : List Item}

theorem Simulates.within (h : Simulates s i) :
    Emits (within true (visit s i)) depth inValue (renderItem s .value i) :=
  (h.value depth).within

/-- As a statement, a call ends in a semicolon and any other value goes to a local. -/
theorem simulates_of_value (hi : statementName? i = none)
    (h : ∀ depth, Emits (visit s i) depth true (renderItem s .value i)) : Simulates s i where
  value := h
  statement depth isLast := by
    cases i with
    | missing => exact emits_throw _
    | call =>
      refine Emits.congr (h depth).within.between ?_
      simp only [renderItem, bind_assoc, pure_bind, Place.finishCall, List.nil_append]
    | ident =>
      refine Emits.congr (h depth).within.between ?_
      simp only [renderItem]
      split <;> rfl
    | bool | integer | decimal | string => exact (h depth).within.between
    | closure | array | binary | format =>
      refine Emits.congr (h depth).within.between ?_
      simp only [renderItem, bind_assoc, pure_bind, Place.finishValue, localPieces]
    | _ => cases hi

/-- Any other statement looks at the flag that is set for it. -/
theorem simulates_of_statement {what : String} (hi : statementName? i = some what)
    (h : ∀ depth isLast written, Writes (visit s i) ⟨written, depth, false, isLast⟩
      (renderItem s (.statement depth isLast) i)) : Simulates s i := by
  cases i with
  | missing | call | ident | bool | integer | decimal | string | closure | array | binary
  | format => cases hi
  | _ =>
    refine ⟨fun _ _ _ => .gap rfl, fun depth isLast written _ => ?_⟩
    refine Writes.begin (h depth isLast written) ?_
    rfl

theorem Emits.statementOnly {what : String} (h : Emits act depth false x) :
    Emits (statementOnly what act) depth false x := by
  intro written isLast
  refine Writes.begin (h written isLast) ?_
  rfl

/-! ## Lists -/

theorem commaSeparated_cons (first : Pieces) (rest : List Pieces) :
    commaSeparated (first :: rest) = first ++ rest.flatMap ([.mark .comma] ++ ·) := by
  induction rest generalizing first with
  | nil => simp [commaSeparated]
  | cons second rest ih =>
    have hrest := ih second
    rw [commaSeparated] at hrest
    rw [commaSeparated, List.intercalate_cons_cons, hrest]
    simp

theorem visitEach_eq_map :
    visitEach s items = items.map fun i => within true (visit s i) := by
  induction items with
  | nil => rfl
  | cons i items ih => rw [visitEach, ih, List.map_cons]

theorem emits_more (h : ∀ i ∈ items, Simulates s i) :
    Emits (more (visitEach s items)) depth inValue
      (do return (← renderValues s items).flatMap ([.mark .comma] ++ ·)) := by
  induction items with
  | nil => exact emits_pure
  | cons i items ih =>
    obtain ⟨hi, hitems⟩ := List.forall_mem_cons.mp h
    refine Emits.congr ((emits_write _).seq (hi.within.seq (ih hitems))) ?_
    simp only [bind_assoc, pure_bind, renderValues]
    rfl

theorem emits_separated (h : ∀ i ∈ items, Simulates s i) :
    Emits (separated (visitEach s items)) depth inValue
      (do return commaSeparated (← renderValues s items)) := by
  cases items with
  | nil => exact emits_pure
  | cons i items =>
    obtain ⟨hi, hitems⟩ := List.forall_mem_cons.mp h
    refine Emits.congr (hi.within.seq (emits_more hitems)) ?_
    simp only [bind_assoc, pure_bind, renderValues, commaSeparated_cons]

theorem emits_slots (h : ∀ i ∈ items, Simulates s i) (slots : List Int) :
    Emits (more (slots.map (slotValue (visitEach s items)))) depth inValue
      (do return (← slotArguments (renderEach s items) slots).flatMap ([.mark .comma] ++ ·)) := by
  induction slots with
  | nil => exact emits_pure
  | cons slot slots ih =>
    have hchosen {α : Type} (f : Item → α) :
        (if slot < 1 then none else (items.map f)[slot.toNat - 1]?) =
          (if slot < 1 then none else items[slot.toNat - 1]?).map f := by
      rw [List.getElem?_map]
      split <;> rfl
    -- a slot chooses the same value from what is visited and from what is rendered
    rw [visitEach_eq_map, renderEach_eq_map] at ih ⊢
    rw [List.map_cons, more, slotValue, slotArguments, hchosen, hchosen, List.length_map,
      List.length_map]
    cases hi : if slot < 1 then none else items[slot.toNat - 1]? with
    | none => exact (emits_write _).seq ((emits_throw _).seq ih)
    | some i =>
      have hmem : i ∈ items := by
        split at hi
        · cases hi
        · exact List.mem_of_getElem? hi
      refine Emits.congr ((emits_write _).seq ((h i hmem).within.seq ih)) ?_
      simp only [bind_assoc, pure_bind, Option.map_some]
      rfl

theorem emits_body (h : ∀ i ∈ items, Simulates s i) (endsBlock : Bool) :
    Emits (visitBody s endsBlock items) depth false (renderBody s depth endsBlock items) := by
  induction items with
  | nil => exact emits_pure
  | cons i items ih =>
    obtain ⟨hi, hitems⟩ := List.forall_mem_cons.mp h
    rw [visitBody, renderBody]
    exact (hi.statement depth _).seq (ih hitems)

attribute [local simp] renderItem Place.statementOnly Place.finishValue Place.finishCall

mutual

theorem simulates (s : Settings) : (i : Item) → Simulates s i
  | .missing => simulates_of_value rfl fun _ => emits_throw _
  | .function _ _ body => simulates_of_statement rfl fun depth isLast written => by
    refine Emits.congr (emits_body (all_simulates s body) true).function.between.statementOnly ?_
      written isLast
    simp
  | .varDecl _ value | .varSet _ value => simulates_of_statement rfl fun depth isLast written =>
    (simulates s value).within.between.statementOnly written isLast
  | .externs _ => simulates_of_statement rfl fun _ isLast written =>
    (emits_write _).statementOnly written isLast
  | .mod _ items => simulates_of_statement rfl fun _ isLast written =>
    ((emits_write _).seq (emits_body (all_simulates s items) false).within).statementOnly
      written isLast
  | .breakLoop | .continueLoop => simulates_of_statement rfl fun depth isLast written => by
    cases depth with
    | zero => exact .gap rfl
    | succ depth => exact .text isLast rfl
  | .returnValue value => simulates_of_statement rfl fun depth isLast written => by
    -- the flag is looked at first, since a closure in the value sets it anew
    refine Writes.begin (((simulates s value).value depth).returning isLast written isLast) ?_
    rfl
  | .ifElif cond body elifs otherwise => simulates_of_statement rfl fun depth isLast written => by
    refine Emits.congr ((emits_write _).seq ((((simulates s cond).value depth).branch
      (emits_body (all_simulates s body) true)).seq ((emits_elifs s elifs).seq
        ((emits_else s otherwise).seq (emits_write _))))).statementOnly ?_ written isLast
    simp
  | .whileLoop cond body => simulates_of_statement rfl fun depth isLast written => by
    refine Emits.congr ((emits_write _).seq ((simulates s cond).within.seq
      (emits_body (all_simulates s body) false).loop)).statementOnly ?_ written isLast
    simp
  | .forRange _ min max step body => simulates_of_statement rfl fun depth isLast written => by
    refine Emits.congr ((emits_write _).seq ((simulates s min).within.between.seq
      ((simulates s max).within.seq ((((simulates s step).value depth).optional [.mark .comma]).seq
        (emits_body (all_simulates s body) false).loop)))).statementOnly ?_ written isLast
    simp [commaSeparated_cons]
  | .forIn _ iterated body => simulates_of_statement rfl fun depth isLast written => by
    refine Emits.congr ((emits_write _).seq ((simulates s iterated).within.seq
      (emits_body (all_simulates s body) false).loop)).statementOnly ?_ written isLast
    simp
  | .call func args => simulates_of_value rfl fun depth => by
    refine Emits.congr (((simulates s func).within.wrapped _).seq
      (emits_separated (all_simulates s args)).between) ?_
    cases hc : isCallable func <;> simp [hc, parenthesized]
  | .ident name => simulates_of_value rfl fun depth => by
    rw [visit, renderItem]
    split
    · exact emits_throw _
    · exact emits_write _
  | .bool _ | .integer _ | .decimal _ | .string _ => simulates_of_value rfl fun _ => emits_write _
  | .closure _ body => simulates_of_value rfl fun _ => by
    refine Emits.congr ((emits_write _).seq (emits_body (all_simulates s body) true).function) ?_
    simp
  | .array elements => simulates_of_value rfl fun _ => by
    refine Emits.congr (emits_separated (all_simulates s elements)).between ?_
    simp
  | .binary op lhs rhs => simulates_of_value rfl fun depth => by
    rw [visit, renderItem]
    cases operatorOf op with
    | error e => exact emits_throw e
    | ok o =>
      refine Emits.congr (((simulates s lhs).within.wrapped _).seq
        ((emits_write _).seq ((simulates s rhs).within.wrapped _))) ?_
      simp only [bind_assoc, pure_bind, ← List.append_assoc]
      rfl
  | .format _ slots values => simulates_of_value rfl fun _ => by
    simp only [visit, renderItem, formatPieces, length_renderEach, Place.finishValue, bind_pure]
    split
    · exact emits_throw _
    split
    · exact emits_throw _
    · refine Emits.congr (emits_slots (all_simulates s values) slots).between ?_
      simp [commaSeparated_cons, parenthesized]

theorem all_simulates (s : Settings) : (items : List Item) → ∀ i ∈ items, Simulates s i
  | [] => by simp
  | i :: items => List.forall_mem_cons.mpr ⟨simulates s i, all_simulates s items⟩

theorem emits_elifs (s : Settings) {depth : Nat} : (elifs : List Branch) →
    Emits (visitElifs s elifs) depth false (renderElifs s depth elifs)
  | [] => emits_pure
  | .mk cond body :: elifs => by
    refine Emits.congr ((emits_write _).seq ((((simulates s cond).value depth).branch
      (emits_body (all_simulates s body) true)).seq (emits_elifs s elifs))) ?_
    simp [renderElifs]

theorem emits_else (s : Settings) {depth : Nat} : (otherwise : Option (List Item)) →
    Emits (visitElse s otherwise) depth false (renderElse s depth otherwise)
  | none => emits_pure
  | some body => (emits_write _).seq (emits_body (all_simulates s body) true).within

end

end Emitter

/-- Emitting with a state and rendering give the same text, or find the same gap. -/
theorem emit_eq_generate (s : Settings) (unit : Option Program) :
    emit s unit = generate s unit := by
  cases unit with
  | none => rfl
  | some program =>
    have hbody : Emitter.Writes (Emitter.within false (Emitter.visitBody s true program.items)) {}
        (renderProgram s program) :=
      (Emitter.emits_body (Emitter.all_simulates s program.items) true).within [] false
    rw [emit, generate]
    generalize renderProgram s program = x at hbody
    cases hbody with
    | gap h | text _ h =>
      rw [h]
      rfl

end RustLua.Lua
