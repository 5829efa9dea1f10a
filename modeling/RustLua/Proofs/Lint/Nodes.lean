import RustLua.Lint.Basic
import RustLua.Proofs.Tree.Nodes

/-! # What is noted at which node

The notes on a node are its own notes and those on its parts. -/
namespace RustLua.Lint

open RustLua.Tree

variable {scope : Scope}

/-! ## Lists -/

@[simp] theorem exprsNotes_eq (es : List Expr) :
    exprsNotes scope es = es.flatMap (exprNotes scope) := by
  induction es with
  | nil => rfl
  | cons e es ih => rw [exprsNotes, ih, List.flatMap_cons]

@[simp] theorem optionNotes_eq (o : Option Expr) :
    optionNotes scope o = o.toList.flatMap (exprNotes scope) := by
  cases o with
  | none => rfl
  | some e => simp [optionNotes]

@[simp] theorem stmtsNotes_eq (ss : List Stmt) :
    stmtsNotes scope ss = ss.flatMap (stmtNotes scope) := by
  induction ss with
  | nil => rfl
  | cons s ss ih => rw [stmtsNotes, ih, List.flatMap_cons]

@[simp] theorem itemsWarnings_eq (is : List Item) :
    itemsWarnings scope is = is.flatMap (itemWarnings scope) := by
  induction is with
  | nil => rfl
  | cons i is ih => rw [itemsWarnings, ih, List.flatMap_cons]

/-! ## Notes -/

/-- The notes of a walk that comes to a node. -/
def notesAt (scope : Scope) : Node → List Note
  | .file f => [.item (itemsWarnings scope f.items)]
  | .item i => [.item (itemWarnings scope i)]
  | .block b => stmtsNotes scope b.stmts
  | .stmt s => stmtNotes scope s
  | .expr e => exprNotes scope e
  | .target e => if isPath e then [] else exprNotes scope e

/-- The notes on an expression itself, wherever it stands. -/
def exprOwnNotes : Expr → List Note
  | .binary op _ _ pos => if op = .div then [.division pos] else []
  | .assign target _ _ => writtenName target
  | .assignOp op target _ pos =>
    (if op = .div then [.division pos] else []) ++ writtenName target
  | .closure params _ _ _ => [.closure params]
  | .forLoop pattern _ _ _ _ => simpleLoopVariable pattern
  | .macroCall _ args _ _ => args.flatMap templateReads
  | _ => []

def pathNotes : Expr → List Note
  | .path segments _ => pathReads segments
  | _ => []

/-- The notes on a node itself. A path is read unless something is assigned to it. -/
def ownNotes : Node → List Note
  | .expr e => pathNotes e ++ exprOwnNotes e
  | .target e => exprOwnNotes e
  | .stmt (.binding pattern _ _ _ _) => simpleBinding pattern
  | _ => []

@[simp] theorem armsNotes_eq (arms : List Arm) :
    armsNotes scope arms = (arms.flatMap Arm.parts).flatMap (notesAt scope) := by
  induction arms with
  | nil => rfl
  | cons arm arms ih =>
    obtain ⟨pattern, guard, body⟩ := arm
    simp [armsNotes, ih, Arm.parts, List.flatMap_map, notesAt]

@[simp] theorem fieldsNotes_eq (fields : List FieldInit) :
    fieldsNotes scope fields = fields.flatMap fun f => exprNotes scope f.value := by
  induction fields with
  | nil => rfl
  | cons f fields ih =>
    obtain ⟨name, value⟩ := f
    simp [fieldsNotes, ih, FieldInit.value]

theorem exprNotes_eq (e : Expr) :
    exprNotes scope e = ownNotes (.expr e) ++ e.parts.flatMap (notesAt scope) := by
  cases e with
  | block b | loop b =>
    cases b
    simp [exprNotes, ownNotes, pathNotes, exprOwnNotes, Expr.parts, notesAt, Block.stmts]
  | ifElse _ b | whileLoop _ b | forLoop _ _ b =>
    cases b
    simp [exprNotes, ownNotes, pathNotes, exprOwnNotes, Expr.parts, notesAt, Block.stmts,
      List.flatMap_map]
  | _ => simp [exprNotes, ownNotes, pathNotes, exprOwnNotes, Expr.parts, notesAt, List.flatMap_map]

/-- A node of a function's code. -/
def isCode : Node → Bool
  | .file _ | .item _ => false
  | _ => true

/-- The notes on a node are its own and those on its parts. The scope differs for an item. -/
theorem notesAt_eq (scope : Scope) {n : Node} (h : isCode n) :
    ∃ scope', notesAt scope n = ownNotes n ++ n.parts.flatMap (notesAt scope') := by
  cases n with
  | file | item => cases h
  | block b => exact ⟨scope, by simp [notesAt, ownNotes, Node.parts, List.flatMap_map]⟩
  | stmt s =>
    cases s with
    | binding _ _ _ otherwise =>
      refine ⟨scope, ?_⟩
      obtain _ | ⟨_, _⟩ := otherwise <;>
        simp [notesAt, stmtNotes, elseNotes, ownNotes, Node.parts, Stmt.parts, Block.stmts,
          List.flatMap_map]
    | item i =>
      exact ⟨{ scope with isNested := true },
        by simp [notesAt, stmtNotes, ownNotes, Node.parts, Stmt.parts]⟩
    | expr e => exact ⟨scope, by simp [notesAt, stmtNotes, ownNotes, Node.parts, Stmt.parts]⟩
  | expr e => exact ⟨scope, exprNotes_eq e⟩
  | target e =>
    refine ⟨scope, ?_⟩
    cases e with
    | path => rfl
    | _ => exact exprNotes_eq _

/-- What is looked for in notes, items apart, is found in the own notes of the nodes of a body. -/
theorem filterMap_notesAt {β : Type} (select : Note → Option β)
    (hitem : ∀ ws, select (.item ws) = none) (scope : Scope) (n : Node) :
    ((notesAt scope n).filterMap select).Perm
      ((n.nodes isCode).flatMap fun x => (ownNotes x.2).filterMap select) := by
  have hstep (scope : Scope) (n : Node) : ∃ scope', ((notesAt scope n).filterMap select).Perm
      ((ownNotes n).filterMap select ++
        if isCode n then n.parts.flatMap fun p => (notesAt scope' p).filterMap select else []) := by
    cases hcode : isCode n with
    | true =>
      obtain ⟨scope', h⟩ := notesAt_eq scope hcode
      refine ⟨scope', .of_eq ?_⟩
      rw [h, List.filterMap_append, List.filterMap_flatMap, if_pos rfl]
    | false =>
      refine ⟨scope, .of_eq ?_⟩
      cases n with
      | file | item => simp [notesAt, ownNotes, hitem]
      | _ => cases hcode
  exact Node.perm_flatMap_nodes hstep scope n

/-! ## Warnings -/

/-- A node that may lead to functions that are linted: no impl block and no constant. -/
def isOpen : Node → Bool
  | .item (.impl ..) | .item (.const ..) => false
  | _ => true

/-- The findings that the rules on names, places and writes never give. -/
def Finding.isOnUse : Finding → Bool
  | .floatDivision | .unusedParameter .. | .unusedVariable .. => true
  | _ => false

/-- The position of a `/` or of a `/=`. -/
def division? : Expr → Option Pos
  | .binary .div _ _ pos | .assignOp .div _ _ pos => some pos
  | _ => none

def nodeDivision? : Node → Option Pos
  | .expr e | .target e => division? e
  | _ => none

/-- A function with a body. -/
structure Function where
  name : Bytes
  params : List Param
  body : Block

def function? : Node → Option Function
  | .item (.fn name params _ (some body) _ _ _) => some ⟨name, params, body⟩
  | _ => none

/-- The warnings on the unused names of a function. -/
def unusedWarnings (scope : Scope) (f : Function) : List Warning :=
  unusedParams f.name f.params (notesAt scope (.block f.body)) ++
    unusedVariables (notesAt scope (.block f.body))

/-- The warnings at a node itself, so far as they are on the use of names and operators. -/
def ownWarnings (scope : Scope) (n : Node) : List Warning :=
  (function? n).toList.flatMap (unusedWarnings scope) ++
    (nodeDivision? n).toList.map fun pos => ⟨.floatDivision, pos⟩

section
variable {keep : Finding → Bool}

/-- The warnings of a kind at a node and below it, the items inside it included. -/
def keptWarnings (keep : Finding → Bool) (scope : Scope) (n : Node) : List Warning :=
  ((notesAt scope n).flatMap Note.warnings).filter (keep ·.finding)

/-- Nothing that is kept is among the warnings. -/
abbrev Passes (keep : Finding → Bool) (ws : List Warning) : Prop := ws.filter (keep ·.finding) = []

theorem passes_of (hk : ∀ f, keep f → f.isOnUse) {ws : List Warning}
    (h : ∀ w ∈ ws, w.finding.isOnUse = false) : Passes keep ws := by
  refine List.filter_eq_nil_iff.mpr fun w hw hkeep => ?_
  have := hk _ hkeep
  rw [h w hw] at this
  cases this

theorem Passes.flatMap {α : Type} {f : α → List Warning} {l : List α}
    (h : ∀ x ∈ l, Passes keep (f x)) : Passes keep (l.flatMap f) := by
  rw [Passes, List.filter_flatMap]
  exact List.flatMap_eq_nil_iff.mpr h

theorem passes_nameWarnings (hk : ∀ f, keep f → f.isOnUse) (role : Role) (name : Bytes)
    (pos : Pos) : Passes keep (nameWarnings role name pos) := by
  refine passes_of hk ?_
  unfold nameWarnings
  split
  · simp [Finding.isOnUse]
  · split <;> simp [Finding.isOnUse]

theorem filter_warnIf (keep : Finding → Bool) (condition : Bool) (finding : Finding) (pos : Pos) :
    (warnIf condition finding pos).filter (keep ·.finding) =
      if keep finding then warnIf condition finding pos else [] := by
  unfold warnIf
  split
  · rw [List.filter_singleton, cond_eq_ite]
  · simp

theorem passes_warnIf (hk : ∀ f, keep f → f.isOnUse) {finding : Finding}
    (h : finding.isOnUse = false) (condition : Bool) (pos : Pos) :
    Passes keep (warnIf condition finding pos) := by
  rw [Passes, filter_warnIf, if_neg fun hkeep => by simp [hk _ hkeep] at h]

theorem filter_flatMap_warnIf {α : Type} {b : Bool} {g : α → Finding} (hb : ∀ x, keep (g x) = b)
    (condition : α → Bool) (pos : α → Pos) (l : List α) :
    (l.flatMap fun x => warnIf (condition x) (g x) (pos x)).filter (keep ·.finding) =
      if b then l.flatMap fun x => warnIf (condition x) (g x) (pos x) else [] := by
  simp only [List.filter_flatMap, filter_warnIf, hb]
  cases b <;> simp

/-- A kind of warning has all or none of those on parameters and of those on variables. -/
theorem filter_unusedWarnings (keep : Finding → Bool) {p v : Bool}
    (hp : ∀ x f, keep (.unusedParameter x f) = p) (hv : ∀ x, keep (.unusedVariable x) = v)
    (scope : Scope) (f : Function) :
    (unusedWarnings scope f).filter (keep ·.finding) =
      (if p then unusedParams f.name f.params (notesAt scope (.block f.body)) else []) ++
        if v then unusedVariables (notesAt scope (.block f.body)) else [] := by
  rw [unusedWarnings, List.filter_append]
  congr 1
  · exact filter_flatMap_warnIf (fun x : Bytes × Pos => hp x.1 f.name) _ _ _
  · exact filter_flatMap_warnIf (fun x : Bytes × Bool × Pos => hv x.1) _ _ _

/-- Of a node's own notes only those on divisions are on use. -/
theorem filter_ownNotes (hk : ∀ f, keep f → f.isOnUse) (n : Node) :
    ((ownNotes n).flatMap Note.warnings).filter (keep ·.finding) =
      ((nodeDivision? n).toList.map fun pos => ⟨.floatDivision, pos⟩).filter (keep ·.finding) := by
  have hname (role : Role) (name : Bytes) (pos : Pos) := passes_nameWarnings hk role name pos
  have hparams (params : List Param) : Passes keep (paramWarnings params) :=
    .flatMap fun _ _ => hname _ _ _
  have hpath (e : Expr) : (pathNotes e).flatMap Note.warnings = [] := by
    unfold pathNotes
    split <;> simp [pathReads, Note.warnings]
  have hwritten (e : Expr) : (writtenName e).flatMap Note.warnings = [] := by
    unfold writtenName
    split <;> rfl
  have htemplate (e : Expr) : (templateReads e).flatMap Note.warnings = [] := by
    unfold templateReads
    split <;> simp [Note.warnings]
  have hexpr (e : Expr) : ((exprOwnNotes e).flatMap Note.warnings).filter (keep ·.finding) =
      ((division? e).toList.map fun pos => ⟨.floatDivision, pos⟩).filter (keep ·.finding) := by
    cases e with
    | binary op | assignOp op =>
      cases op <;> simp [exprOwnNotes, division?, Note.warnings, hwritten]
    | assign | closure | macroCall =>
      simp [exprOwnNotes, division?, Note.warnings, hwritten, hparams, htemplate,
        List.flatMap_assoc]
    | forLoop pattern =>
      cases pattern <;>
        simp [exprOwnNotes, division?, simpleLoopVariable, Note.warnings, hname]
    | _ => rfl
  cases n with
  | expr e => rw [ownNotes, List.flatMap_append, hpath, List.nil_append, hexpr, nodeDivision?]
  | target e => exact hexpr e
  | stmt s =>
    cases s with
    | binding pattern =>
      cases pattern <;> simp [ownNotes, nodeDivision?, simpleBinding, Note.warnings, hname]
    | item | expr => rfl
  | file | item | block => rfl

/-- Of the rules of a function, those on unused names add to what its body gives. -/
theorem filter_functionWarnings (hk : ∀ f, keep f → f.isOnUse) (name : Bytes)
    (params : List Param) (isEmpty : Bool) (pos : Pos) (notes : List Note) :
    (functionWarnings scope name params isEmpty pos notes).filter (keep ·.finding) =
      (notes.flatMap Note.warnings).filter (keep ·.finding) ++
        (unusedParams name params notes ++ unusedVariables notes).filter (keep ·.finding) := by
  have hplace : Passes keep (placeWarnings scope name pos) := by
    unfold placeWarnings
    split
    · exact passes_of hk (by simp [Finding.isOnUse])
    · exact passes_warnIf hk rfl _ _
  have hparams : Passes keep (paramWarnings params) :=
    .flatMap fun _ _ => passes_nameWarnings hk _ _ _
  have hwritten : Passes keep (neverReassigned notes) :=
    .flatMap fun _ _ => passes_warnIf hk rfl _ _
  have hnaming : Passes keep (warnIf (!isSnakeCase name) (.naming name) pos) :=
    passes_warnIf hk rfl _ _
  have hempty : Passes keep (warnIf isEmpty (.emptyBody name) pos) := passes_warnIf hk rfl _ _
  simp only [functionWarnings, List.filter_append, hplace, hparams, hwritten, hnaming, hempty,
    List.nil_append, List.append_nil, List.append_assoc]

theorem keptWarnings_item (hk : ∀ f, keep f → f.isOnUse) (scope : Scope) (i : Item) :
    ∃ scope', (keptWarnings keep scope (.item i)).Perm
      ((ownWarnings scope (.item i)).filter (keep ·.finding) ++
        if isOpen (.item i) then i.parts.flatMap (keptWarnings keep scope') else []) := by
  have hname (role : Role) (name : Bytes) (pos : Pos) := passes_nameWarnings hk role name pos
  have hitem : keptWarnings keep scope (.item i) =
      (itemWarnings scope i).filter (keep ·.finding) := by
    simp [keptWarnings, notesAt, Note.warnings]
  rw [hitem]
  cases i with
  | fn name params returns body abi isPublic pos =>
    refine ⟨scope, ?_⟩
    cases body with
    | none => simp [itemWarnings, hname, ownWarnings, function?, nodeDivision?, isOpen, Item.parts]
    | some b =>
      obtain ⟨stmts, blockPos⟩ := b
      have hfn :
          itemWarnings scope (.fn name params returns (some ⟨stmts, blockPos⟩) abi isPublic pos) =
          nameWarnings .function name pos ++ functionWarnings scope name params stmts.isEmpty pos
            (notesAt scope (.block ⟨stmts, blockPos⟩)) := by
        rw [itemWarnings]
        rfl
      rw [hfn, List.filter_append, hname, filter_functionWarnings hk, List.nil_append]
      refine List.perm_append_comm.trans (.of_eq ?_)
      simp [ownWarnings, function?, unusedWarnings, nodeDivision?, isOpen, Item.parts, keptWarnings]
  | inlineModule name items pos =>
    refine ⟨scope.enter name, .of_eq ?_⟩
    simp [itemWarnings, hname, ownWarnings, function?, nodeDivision?, isOpen, Item.parts,
      List.flatMap_map, List.filter_flatMap, keptWarnings, notesAt, Note.warnings]
  | foreign abi items pos =>
    have hforeign : Passes keep (items.flatMap fun f => nameWarnings .externName f.name f.pos) :=
      .flatMap fun _ _ => hname _ _ _
    exact ⟨scope, by
      simp [itemWarnings, hforeign, ownWarnings, function?, nodeDivision?, isOpen, Item.parts]⟩
  | _ => exact ⟨scope, by
      simp [itemWarnings, hname, ownWarnings, function?, nodeDivision?, isOpen, Item.parts]⟩

/-- What is kept at a node is what is kept of its own warnings and at its parts. -/
theorem keptWarnings_step (hk : ∀ f, keep f → f.isOnUse) (scope : Scope) (n : Node) :
    ∃ scope', (keptWarnings keep scope n).Perm
      ((ownWarnings scope n).filter (keep ·.finding) ++
        if isOpen n then n.parts.flatMap (keptWarnings keep scope') else []) := by
  have code (hcode : isCode n) (hopen : isOpen n)
      (hown : ownWarnings scope n =
        (nodeDivision? n).toList.map fun pos => ⟨.floatDivision, pos⟩) :
      ∃ scope', keptWarnings keep scope n = (ownWarnings scope n).filter (keep ·.finding) ++
        if isOpen n then n.parts.flatMap (keptWarnings keep scope') else [] := by
    obtain ⟨scope', h⟩ := notesAt_eq scope hcode
    refine ⟨scope', ?_⟩
    rw [hown, ← filter_ownNotes hk, if_pos hopen, keptWarnings, h, List.flatMap_append,
      List.filter_append, List.flatMap_assoc, List.filter_flatMap (l := n.parts)]
    rfl
  cases n with
  | item i => exact keptWarnings_item hk scope i
  | file f =>
    refine ⟨scope, .of_eq ?_⟩
    simp [keptWarnings, notesAt, Note.warnings, ownWarnings, function?, nodeDivision?, isOpen,
      Node.parts, List.flatMap_map, List.filter_flatMap]
  | _ =>
    obtain ⟨scope', h⟩ := code rfl rfl rfl
    exact ⟨scope', .of_eq h⟩

/-! ## One to one -/

/-- Every warning belongs to one place with the property, and every such place has one
warning. -/
def Corresponds {α : Type} (P : α → Warning → Prop) (ws : List Warning) : Prop :=
  ∃ places : List α, places.Nodup ∧ (∀ x, x ∈ places ↔ ∃ w, P x w) ∧ List.Forall₂ P places ws

theorem corresponds_of_perm {α : Type} {P : α → Warning → Prop} {ws : List Warning}
    {l : List (α × Warning)} (hnodup : (l.map Prod.fst).Nodup)
    (hmem : ∀ x w, (x, w) ∈ l ↔ P x w) (hperm : ws.Perm (l.map Prod.snd)) : Corresponds P ws := by
  have hpaired : List.Forall₂ (flip P) (l.map Prod.snd) (l.map Prod.fst) := by
    rw [List.forall₂_map_left_iff, List.forall₂_map_right_iff, List.forall₂_same]
    exact fun x hx => (hmem x.1 x.2).mp hx
  obtain ⟨places, hplaces, hsame⟩ := List.perm_comp_forall₂ hperm hpaired
  refine ⟨places, hsame.nodup_iff.mpr hnodup, fun x => ?_, hplaces.flip⟩
  simp [hsame.mem_iff, hmem]

/-- Warnings of a kind that every node gives for itself, under whatever keys, correspond to the
nodes that the walk comes to. -/
theorem corresponds_found {κ α : Type} {key : Address → κ → α} (hkey : Function.Injective2 key)
    (hk : ∀ f, keep f → f.isOnUse) (found : Node → List (κ × Warning))
    (hnodup : ∀ n, ((found n).map Prod.fst).Nodup)
    (hown : ∀ scope n,
      ((ownWarnings scope n).filter (keep ·.finding)).Perm ((found n).map Prod.snd))
    {file : File} {P : α → Warning → Prop} (hP : ∀ x w, P x w ↔
      ∃ a k n, key a k = x ∧ (Node.file file).at? isOpen a = some n ∧ (k, w) ∈ found n) :
    Corresponds P ((warnings file).filter (keep ·.finding)) := by
  refine corresponds_of_perm (l := ((Node.file file).nodes isOpen).flatMap fun x =>
    (found x.2).map fun y => (key x.1 y.1, y.2)) ?_ (fun x w => ?_) ?_
  · simp only [List.map_flatMap, List.map_map, List.nodup_flatMap]
    refine ⟨fun x _ => ?_, ?_⟩
    · have h := (hnodup x.2).map (hkey.right x.1)
      rw [List.map_map] at h
      exact h
    · refine (List.pairwise_map.mp (Node.nodup_addresses isOpen (.file file))).imp fun hne => ?_
      intro z hx hy
      obtain ⟨_, _, rfl⟩ := List.mem_map.mp hx
      obtain ⟨_, _, h⟩ := List.mem_map.mp hy
      exact hne (hkey h).1.symm
  · rw [hP]
    constructor
    · intro h
      obtain ⟨⟨a, n⟩, hn, h⟩ := List.mem_flatMap.mp h
      obtain ⟨⟨k, w'⟩, hf, h⟩ := List.mem_map.mp h
      cases h
      exact ⟨a, k, n, rfl, Node.mem_nodes.mp hn, hf⟩
    · rintro ⟨a, k, n, rfl, hn, hf⟩
      exact List.mem_flatMap.mpr ⟨(a, n), Node.mem_nodes.mpr hn, List.mem_map.mpr ⟨(k, w), hf, rfl⟩⟩
  · have hstep (scope : Scope) (n : Node) : ∃ scope', (keptWarnings keep scope n).Perm
        ((found n).map Prod.snd ++
          if isOpen n then n.parts.flatMap (keptWarnings keep scope') else []) := by
      obtain ⟨scope', h⟩ := keptWarnings_step hk scope n
      exact ⟨scope', h.trans ((hown scope n).append_right _)⟩
    have hfile : keptWarnings keep {} (.file file) = (warnings file).filter (keep ·.finding) := by
      simp [keptWarnings, notesAt, Note.warnings, warnings]
    rw [← hfile, List.map_flatMap]
    simp only [List.map_map]
    exact Node.perm_flatMap_nodes hstep {} (.file file)

end

end RustLua.Lint
