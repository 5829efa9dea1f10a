import RustLua.Proofs.Lint.Nodes

/-! # Unused names

A name that a body never reads is warned of at each of its bindings, and so is a parameter.
Reading is local: a path reads its first segment, unless it is what a plain assignment writes
to, and a macro reads the names in its templates. A function inside the body reads for itself. -/
namespace RustLua.Lint

open RustLua.Tree

variable {name : Bytes}

/-! ## Reads -/

/-- The names in the template that a macro argument may be. -/
def templateNames : Expr → List Bytes
  | .lit ⟨.string, text, _⟩ => inlineNames text
  | _ => []

/-- The names that a node reads itself. -/
def nodeReads : Node → List Bytes
  | .expr (.path (first :: _) _) => [first]
  | .expr (.macroCall _ args _ _) | .target (.macroCall _ args _ _) => args.flatMap templateNames
  | _ => []

/-- A name is read somewhere in a body, the items inside it apart. -/
def Reads (body : Block) (name : Bytes) : Prop :=
  ∃ a n, (Node.block body).at? isCode a = some n ∧ name ∈ nodeReads n

/-- A name that should be read in a body and is not. -/
def Unread (body : Block) (name : Bytes) : Prop :=
  name.head? ≠ some Ascii.underscore ∧ ¬Reads body name

/-- A function with a body that the walk over a file comes to. -/
def FunctionAt (file : File) (a : Address) (f : Function) : Prop :=
  ∃ n, (Node.file file).at? isOpen a = some n ∧ function? n = some f

/-- A let binding of an unread name, given by the address of a function and by that of the
binding in the body, and its warning. -/
def UnreadBinding (file : File) (x : Address × Address) (w : Warning) : Prop :=
  ∃ f, FunctionAt file x.1 f ∧ ∃ name isMut byRef pos type init otherwise stmtPos,
    (Node.block f.body).at? isCode x.2 =
      some (.stmt (.binding (.ident name isMut byRef pos) type init otherwise stmtPos)) ∧
    Unread f.body name ∧ w = ⟨.unusedVariable name, pos⟩

/-- A parameter with an unread name, given by the address of its function and by its number,
and its warning. A receiver is no such parameter. -/
def UnreadParam (file : File) (x : Address × Nat) (w : Warning) : Prop :=
  ∃ f, FunctionAt file x.1 f ∧ ∃ name isMut byRef patternPos type pos,
    f.params[x.2]? = some ⟨.ident name isMut byRef patternPos, type, false, pos⟩ ∧
    Unread f.body name ∧ w = ⟨.unusedParameter name f.name, pos⟩

/-! ## Notes on names -/

def Note.read? : Note → Option Bytes
  | .read name => some name
  | _ => none

def Note.binding? : Note → Option (Bytes × Pos)
  | .binding name _ pos => some (name, pos)
  | _ => none

/-- A let binding of a simple name. -/
def nodeBinding? : Node → Option (Bytes × Pos)
  | .stmt (.binding (.ident name _ _ pos) _ _ _ _) => some (name, pos)
  | _ => none

/-- The own notes of a node that are reads or let bindings. -/
def nameNotes : Node → List Note
  | .stmt (.binding pattern _ _ _ _) => simpleBinding pattern
  | n => (nodeReads n).map .read

section
variable {β : Type} {select : Note → Option β}

/-- Nothing is selected but reads, let bindings and items. -/
structure SelectsNames (select : Note → Option β) : Prop where
  assigned (name : Bytes) : select (.assigned name) = none
  division (pos : Pos) : select (.division pos) = none
  closure (params : List Param) : select (.closure params) = none
  loopVariable (name : Bytes) (pos : Pos) : select (.loopVariable name pos) = none

theorem SelectsNames.exprOwnNotes (h : SelectsNames select) (e : Expr) :
    (exprOwnNotes e).filterMap select = (nameNotes (.target e)).filterMap select := by
  have hwritten (e : Expr) : (writtenName e).filterMap select = [] := by
    unfold writtenName
    split <;> simp [h.assigned]
  have htemplate : templateReads = fun e => (templateNames e).map .read := by
    funext e
    cases e with
    | lit l =>
      obtain ⟨kind, text, pos⟩ := l
      cases kind <;> rfl
    | _ => rfl
  cases e with
  | binary =>
    rw [Lint.exprOwnNotes]
    split <;> simp [h.division, nameNotes, nodeReads]
  | assign => exact hwritten _
  | assignOp =>
    rw [Lint.exprOwnNotes, List.filterMap_append, hwritten]
    split <;> simp [h.division, nameNotes, nodeReads]
  | closure => simp [Lint.exprOwnNotes, h.closure, nameNotes, nodeReads]
  | forLoop pattern =>
    cases pattern <;>
      simp [Lint.exprOwnNotes, simpleLoopVariable, h.loopVariable, nameNotes, nodeReads]
  | macroCall => simp [Lint.exprOwnNotes, htemplate, nameNotes, nodeReads, List.map_flatMap]
  | _ => rfl

/-- Reads and let bindings are noted at the nodes that read and bind. -/
theorem SelectsNames.ownNotes (h : SelectsNames select) (n : Node) :
    (ownNotes n).filterMap select = (nameNotes n).filterMap select := by
  cases n with
  | expr e =>
    rw [Lint.ownNotes, List.filterMap_append, h.exprOwnNotes]
    cases e with
    | path segments => cases segments <;> simp [pathNotes, pathReads, nameNotes, nodeReads]
    | _ => rfl
  | target e => exact h.exprOwnNotes e
  | stmt s =>
    cases s with
    | binding => rfl
    | item | expr => rfl
  | file | item | block => rfl

end

variable {scope : Scope} {body : Block}

theorem mem_readNames :
    name ∈ readNames (notesAt scope (.block body)) ↔ Reads body name := by
  have hselects : SelectsNames Note.read? :=
    ⟨fun _ => rfl, fun _ => rfl, fun _ => rfl, fun _ _ => rfl⟩
  have hown (n : Node) : (ownNotes n).filterMap Note.read? = nodeReads n := by
    rw [hselects.ownNotes]
    unfold nameNotes
    split
    · unfold simpleBinding
      split <;> rfl
    · exact (List.filterMap_map ..).trans List.filterMap_some
  have hnames : readNames = List.filterMap Note.read? := rfl
  rw [hnames, (filterMap_notesAt _ (fun _ => rfl) scope (.block body)).mem_iff]
  simp [hown, Node.mem_nodes, Reads]

/-- The let bindings that are noted are those of the nodes of the body. -/
theorem filterMap_binding?_notesAt (scope : Scope) (body : Block) :
    ((notesAt scope (.block body)).filterMap Note.binding?).Perm
      (((Node.block body).nodes isCode).filterMap fun x => nodeBinding? x.2) := by
  have hselects : SelectsNames Note.binding? :=
    ⟨fun _ => rfl, fun _ => rfl, fun _ => rfl, fun _ _ => rfl⟩
  have hown (n : Node) : (ownNotes n).filterMap Note.binding? = (nodeBinding? n).toList := by
    rw [hselects.ownNotes]
    have hread (names : List Bytes) : (names.map Note.read).filterMap Note.binding? = [] := by
      rw [List.filterMap_map]
      exact List.filterMap_none _
    cases n with
    | stmt s =>
      cases s with
      | binding pattern => cases pattern <;> rfl
      | item | expr => rfl
    | _ => exact hread _
  rw [List.filterMap_eq_flatMap_toList fun x : Address × Node => nodeBinding? x.2]
  simpa only [hown] using filterMap_notesAt Note.binding? (fun _ => rfl) scope (.block body)

/-! ## Unread names -/

def isUnread (body : Block) (name : Bytes) : Bool :=
  !isIgnored name && !(((Node.block body).nodes isCode).flatMap fun x => nodeReads x.2).elem name

theorem isUnread_iff : isUnread body name ↔ Unread body name := by
  have hignored : isIgnored name = false ↔ name.head? ≠ some Ascii.underscore := by
    cases name with
    | nil => exact iff_of_true rfl (by simp)
    | cons b rest => simp [isIgnored]
  simp [isUnread, Unread, hignored, Reads, Node.mem_nodes]

theorem isUnread_eq (scope : Scope) (body : Block) (name : Bytes) :
    (!isIgnored name && !(readNames (notesAt scope (.block body))).elem name) =
      isUnread body name := by
  have helem : (readNames (notesAt scope (.block body))).elem name =
      (((Node.block body).nodes isCode).flatMap fun x => nodeReads x.2).elem name := by
    rw [Bool.eq_iff_iff]
    simp [mem_readNames, Reads, Node.mem_nodes]
  rw [helem, isUnread]

section
variable {ι κ : Type} {isUnread : Bytes → Bool} {finding : Bytes → Finding} {key : ι → κ}
  {candidate? : ι → Option (Bytes × Pos)} {l : List ι}

/-- The warnings on those of the candidates that are unread, under their keys. -/
def unreadAmong (isUnread : Bytes → Bool) (finding : Bytes → Finding) (key : ι → κ)
    (candidate? : ι → Option (Bytes × Pos)) (l : List ι) : List (κ × Warning) :=
  l.filterMap fun x => (candidate? x).bind fun c =>
    if isUnread c.1 then some (key x, ⟨finding c.1, c.2⟩) else none

theorem map_snd_unreadAmong :
    (unreadAmong isUnread finding key candidate? l).map Prod.snd =
      (l.filterMap candidate?).flatMap fun c => warnIf (isUnread c.1) (finding c.1) c.2 := by
  unfold unreadAmong
  induction l with
  | nil => rfl
  | cons x l ih =>
    cases hc : candidate? x with
    | none => simp [hc, ih]
    | some c => cases hu : isUnread c.1 <;> simp [hc, hu, ih, warnIf]

theorem mem_unreadAmong {k : κ} {w : Warning} :
    (k, w) ∈ unreadAmong isUnread finding key candidate? l ↔
      ∃ x ∈ l, key x = k ∧ ∃ name pos, candidate? x = some (name, pos) ∧ isUnread name ∧
        w = ⟨finding name, pos⟩ := by
  simp only [unreadAmong, List.mem_filterMap, Option.bind_eq_some_iff]
  constructor
  · rintro ⟨x, hx, ⟨name, pos⟩, hc, h⟩
    split at h
    · cases h
      exact ⟨x, hx, rfl, name, pos, hc, ‹_›, rfl⟩
    · cases h
  · rintro ⟨x, hx, rfl, name, pos, hc, hu, rfl⟩
    exact ⟨x, hx, (name, pos), hc, if_pos hu⟩

theorem nodup_unreadAmong (h : (l.map key).Nodup) :
    ((unreadAmong isUnread finding key candidate? l).map Prod.fst).Nodup := by
  have hkey {x : ι} {y : κ × Warning}
      (h : ((candidate? x).bind fun c =>
        if isUnread c.1 then some (key x, ⟨finding c.1, c.2⟩) else none) = some y) :
      y.1 = key x := by
    obtain ⟨c, -, h⟩ := Option.bind_eq_some_iff.mp h
    split at h
    · cases h
      rfl
    · cases h
  refine List.pairwise_map.mpr (List.pairwise_filterMap.mpr ?_)
  refine (List.pairwise_map.mp h).imp fun hne y hy z hz => ?_
  rw [hkey hy, hkey hz]
  exact hne

end

/-! ## Exactness -/

def Finding.isUnusedVariable : Finding → Bool
  | .unusedVariable _ => true
  | _ => false

def Finding.isUnusedParameter : Finding → Bool
  | .unusedParameter _ _ => true
  | _ => false

def simpleParam? (p : Param) : Option (Bytes × Pos) :=
  match p.pattern with
  | .ident name _ _ _ => if p.isReceiver then none else some (name, p.pos)
  | _ => none

theorem simpleParam?_eq_some {p : Param} {pos : Pos} :
    simpleParam? p = some (name, pos) ↔
      ∃ isMut byRef patternPos type, p = ⟨.ident name isMut byRef patternPos, type, false, pos⟩ := by
  obtain ⟨pattern, type, isReceiver, paramPos⟩ := p
  cases pattern <;> cases isReceiver <;> simp [simpleParam?]

theorem nodeBinding?_eq_some {n : Node} {pos : Pos} :
    nodeBinding? n = some (name, pos) ↔ ∃ isMut byRef type init otherwise stmtPos,
      n = .stmt (.binding (.ident name isMut byRef pos) type init otherwise stmtPos) := by
  cases n with
  | stmt s =>
    cases s with
    | binding pattern => cases pattern <;> simp [nodeBinding?]
    | _ => simp [nodeBinding?]
  | _ => simp [nodeBinding?]

/-- Warnings that each function gives for its own body correspond to what they are listed by. -/
theorem corresponds_unused {κ : Type} {keep : Finding → Bool} (hk : ∀ f, keep f → f.isOnUse)
    (hdivision : keep .floatDivision = false) (listed : Function → List (κ × Warning))
    (hnodup : ∀ f, ((listed f).map Prod.fst).Nodup)
    (hperm : ∀ scope f,
      ((unusedWarnings scope f).filter (keep ·.finding)).Perm ((listed f).map Prod.snd))
    {file : File} {P : Address × κ → Warning → Prop}
    (hP : ∀ x w, P x w ↔ ∃ f, FunctionAt file x.1 f ∧ (x.2, w) ∈ listed f) :
    Corresponds P ((warnings file).filter (keep ·.finding)) := by
  have hkey : Function.Injective2 (@Prod.mk Address κ) := fun _ _ _ _ h => Prod.mk.inj h
  refine corresponds_found hkey hk (fun n => (function? n).toList.flatMap listed)
    (fun n => ?_) (fun scope n => ?_) (fun x w => ?_)
  · cases function? n <;> simp [hnodup]
  · rw [ownWarnings, List.filter_append, List.filter_flatMap]
    cases function? n <;> cases nodeDivision? n <;> simp [hdivision, hperm]
  · rw [hP]
    constructor
    · rintro ⟨f, ⟨n, hn, hf⟩, hw⟩
      exact ⟨x.1, x.2, n, rfl, hn, by simpa [hf] using hw⟩
    · rintro ⟨a, k, n, rfl, hn, hw⟩
      obtain ⟨f, hf, hw⟩ := List.mem_flatMap.mp hw
      exact ⟨f, ⟨n, hn, Option.mem_toList.mp hf⟩, hw⟩

theorem unusedVariables_eq (scope : Scope) (body : Block) :
    unusedVariables (notesAt scope (.block body)) =
      ((notesAt scope (.block body)).filterMap Note.binding?).flatMap fun c =>
        warnIf (isUnread body c.1) (.unusedVariable c.1) c.2 := by
  have hbindings (notes : List Note) :
      notes.filterMap Note.binding? = (bindings notes).map fun b => (b.1, b.2.2) := by
    rw [bindings, List.map_filterMap]
    congr 1
    funext note
    cases note <;> rfl
  rw [hbindings, List.flatMap_map]
  simp only [unusedVariables, isUnread_eq]

theorem corresponds_bindings (file : File) :
    Corresponds (UnreadBinding file) ((warnings file).filter (·.finding.isUnusedVariable)) := by
  refine corresponds_unused (fun f h => ?_) rfl
    (fun f => unreadAmong (isUnread f.body) .unusedVariable Prod.fst
      (fun x => nodeBinding? x.2) ((Node.block f.body).nodes isCode))
    (fun f => nodup_unreadAmong (Node.nodup_addresses _ _)) (fun scope f => ?_) (fun x w => ?_)
  · cases f with
    | unusedVariable => rfl
    | _ => cases h
  · rw [filter_unusedWarnings _ (p := false) (v := true) (fun _ _ => rfl) (fun _ => rfl),
      if_neg Bool.false_ne_true, if_pos rfl, List.nil_append, unusedVariables_eq,
      map_snd_unreadAmong]
    exact (filterMap_binding?_notesAt scope f.body).flatMap_right _
  · simp only [mem_unreadAmong, UnreadBinding, isUnread_iff, Prod.exists, Node.mem_nodes,
      nodeBinding?_eq_some]
    refine exists_congr fun f => and_congr_right fun _ => ⟨?_, ?_⟩
    · rintro ⟨name, isMut, byRef, pos, type, init, otherwise, stmtPos, hn, h⟩
      exact ⟨_, _, hn, rfl, name, pos, ⟨isMut, byRef, type, init, otherwise, stmtPos, rfl⟩, h⟩
    · rintro ⟨_, _, hn, rfl, name, pos, ⟨isMut, byRef, type, init, otherwise, stmtPos, rfl⟩, h⟩
      exact ⟨name, isMut, byRef, pos, type, init, otherwise, stmtPos, hn, h⟩

theorem corresponds_params (file : File) :
    Corresponds (UnreadParam file) ((warnings file).filter (·.finding.isUnusedParameter)) := by
  refine corresponds_unused (fun f h => ?_) rfl
    (fun f => unreadAmong (isUnread f.body) (.unusedParameter · f.name) Prod.snd
      (fun x => simpleParam? x.1) f.params.zipIdx)
    (fun f => nodup_unreadAmong (List.nodup_zipIdx_map_snd _)) (fun scope f => ?_) (fun x w => ?_)
  · cases f with
    | unusedParameter => rfl
    | _ => cases h
  · have hparams : (f.params.zipIdx.filterMap fun x => simpleParam? x.1) =
        simpleParams f.params := by
      conv_rhs => rw [← List.zipIdx_map_fst 0 f.params, simpleParams, List.filterMap_map]
      rfl
    rw [filter_unusedWarnings _ (p := true) (v := false) (fun _ _ => rfl) (fun _ => rfl),
      if_pos rfl, if_neg Bool.false_ne_true, List.append_nil, map_snd_unreadAmong, hparams]
    simp only [unusedParams, isUnread_eq, List.Perm.refl]
  · simp only [mem_unreadAmong, UnreadParam, isUnread_iff, Prod.exists, simpleParam?_eq_some,
      List.mk_mem_zipIdx_iff_getElem?]
    refine exists_congr fun f => and_congr_right fun _ => ⟨?_, ?_⟩
    · rintro ⟨name, isMut, byRef, patternPos, type, pos, hp, h⟩
      exact ⟨_, _, hp, rfl, name, pos, ⟨isMut, byRef, patternPos, type, rfl⟩, h⟩
    · rintro ⟨_, _, hp, rfl, name, pos, ⟨isMut, byRef, patternPos, type, rfl⟩, h⟩
      exact ⟨name, isMut, byRef, patternPos, type, pos, hp, h⟩

/-- The warnings on unused variables are those of the let bindings of unread names, one each,
and the warnings on unused parameters those of the parameters with unread names. -/
theorem unused_warnings_exact (file : File) :
    Corresponds (UnreadBinding file) ((warnings file).filter (·.finding.isUnusedVariable)) ∧
      Corresponds (UnreadParam file) ((warnings file).filter (·.finding.isUnusedParameter)) :=
  ⟨corresponds_bindings file, corresponds_params file⟩

end RustLua.Lint
