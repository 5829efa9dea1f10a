import RustLua.Build.Compile
import RustLua.Lint.Basic
import RustLua.Proofs.Ir.Parts
import RustLua.Proofs.Lowering.Steps

/-! # Every name that is bound is looked at

Linting and lowering walk over the same tree and know nothing of each other. A name that
ends up as a binding of the program, at any depth, stands in the source at a place where
the rules on names look: a walk over a body notes its bindings, loop variables and
closures wherever they are, and an item inside a body is linted like one outside. -/
namespace RustLua

variable {i : Ir.Item} {binder : Binder} {body : List Ir.Item}

namespace Ir

/-- The names that a node binds itself; a receiver is called `self`. -/
def Item.binders : Item → List Bytes
  | .function name params _ => name :: params
  | .closure params _ => params
  | .varDecl name _ | .mod name _ | .forRange name .. | .forIn name .. => [name]
  | .externs names => names
  | _ => []

/-- A name that some node in the program binds. -/
def Program.Binds (program : Program) (name : Bytes) : Prop :=
  ∃ inLoop x, program.Holds inLoop x ∧ name ∈ x.binders

end Ir

namespace Lint

open RustLua.Tree RustLua.Lowering

variable {ws : List Warning} {name : Bytes}

/-- A name that Lua reserves or that output itself refers to. -/
def IsTroublesome (name : Bytes) : Prop := Lua.isReserved name = true ∨ isRuntimeName name = true

/-- The warnings hold those of the rule on names for this name, in some role at some place. -/
def Flags (ws : List Warning) (name : Bytes) : Prop :=
  ∃ role pos, nameWarnings role name pos ⊆ ws

/-- Every troublesome name that is bound in the node is flagged. -/
def Covers (ws : List Warning) (i : Ir.Item) : Prop :=
  ∀ b c x, Ir.Occurs b i c x → ∀ n ∈ x.binders, IsTroublesome n → Flags ws n

theorem Covers.intro (hself : ∀ n ∈ i.binders, IsTroublesome n → Flags ws n)
    (hparts : ∀ p ∈ i.parts, Covers ws p.2) : Covers ws i := by
  intro b c x hx
  cases hx with
  | self => exact hself
  | part hm below => exact hparts _ hm _ _ _ below

theorem Covers.part {j : Ir.Item} {w : Ir.Way} (h : Covers ws i) (hm : (w, j) ∈ i.parts) :
    Covers ws j :=
  fun b c x hx n hn ht => by
    obtain ⟨c', hx'⟩ := hx.anywhere (w.inLoop false)
    exact h _ _ _ (.part hm hx') n hn ht

/-- A node that binds nothing itself. -/
theorem Covers.ofParts (hself : i.binders = [])
    (hparts : ∀ p ∈ i.parts, Covers ws p.2) : Covers ws i :=
  .intro (by simp [hself]) hparts

theorem covers_leaf (hself : i.binders = []) (hparts : i.parts = []) :
    Covers ws i :=
  .ofParts hself (by simp [hparts])

/-! ## Sequences -/

/-- Every troublesome name that a contribution binds is flagged. -/
def CoversContribution (ws : List Warning) : Contribution → Prop
  | .node item => Covers ws item
  | .externs names => ∀ n ∈ names, IsTroublesome n → Flags ws n

theorem covers_collect {list : List Contribution} (h : ∀ c ∈ list, CoversContribution ws c) :
    ∀ i ∈ collect list, Covers ws i := by
  refine forall_mem_collect (fun _ => h _) fun names _ hnames => ?_
  refine .intro (fun n hn => ?_) (by simp [Ir.Item.parts])
  obtain ⟨c, hc, hm⟩ := hnames n hn
  cases c with
  | node item => cases hm
  | externs names => exact h _ hc n hm

/-! ## Names -/

theorem not_isTroublesome_wild : ¬IsTroublesome "_" := by
  unfold IsTroublesome
  decide

theorem not_isTroublesome_self : ¬IsTroublesome "self" := by
  unfold IsTroublesome
  decide

theorem not_isTroublesome_nil : ¬IsTroublesome [] := by
  unfold IsTroublesome
  decide

/-- A pattern that binds a troublesome name is that name. -/
theorem bindingName_ident {pattern : Pattern}
    (h : bindingName binder pattern = .ok name) (hn : IsTroublesome name) :
    ∃ isMut byRef pos, pattern = .ident name isMut byRef pos := by
  cases pattern with
  | ident n isMut byRef pos =>
    rw [bindingName] at h
    split at h
    · cases h
    · cases h
      exact ⟨isMut, byRef, pos, rfl⟩
  | wild => cases h; exact absurd hn not_isTroublesome_wild
  | _ => cases h

theorem paramNames_flagged {params : List Param} {names : List Bytes}
    (h : paramNames binder params = .ok names) (hws : paramWarnings params ⊆ ws) :
    ∀ n ∈ names, IsTroublesome n → Flags ws n := by
  induction params generalizing names with
  | nil => cases h; simp
  | cons p ps ih =>
    have hps : paramWarnings ps ⊆ ws := by
      refine fun w hw => hws ?_
      obtain ⟨q, hq, hw⟩ := List.mem_flatMap.mp hw
      exact List.mem_flatMap.mpr ⟨q, by
        rw [simpleParams, List.filterMap_cons]
        split
        · exact hq
        · exact List.mem_cons_of_mem _ hq, hw⟩
    simp only [paramNames] at h
    split at h
    · obtain ⟨_, hself, h⟩ := bind_eq_ok.mp h
      obtain ⟨rest, hr, h⟩ := bind_eq_ok.mp h
      cases hself
      cases h
      exact List.forall_mem_cons.mpr
        ⟨fun hn => absurd hn not_isTroublesome_self, ih hr hps⟩
    · rename_i hreceiver
      obtain ⟨n, hb, h⟩ := bind_eq_ok.mp h
      obtain ⟨rest, hr, h⟩ := bind_eq_ok.mp h
      cases h
      refine List.forall_mem_cons.mpr ⟨fun hn => ?_, ih hr hps⟩
      obtain ⟨isMut, byRef, pos, hpat⟩ := bindingName_ident hb hn
      refine ⟨.parameter, p.pos, fun w hw => hws (List.mem_flatMap.mpr ⟨(n, p.pos), ?_, hw⟩)⟩
      simp [simpleParams, hpat, hreceiver]

/-! ## Notes -/

/-- What the notes say is among the warnings. -/
def Hears (ws : List Warning) (notes : List Note) : Prop := ∀ note ∈ notes, note.warnings ⊆ ws

@[simp] theorem hears_append {a b : List Note} : Hears ws (a ++ b) ↔ Hears ws a ∧ Hears ws b :=
  List.forall_mem_append

@[simp] theorem hears_cons {a : Note} {b : List Note} :
    Hears ws (a :: b) ↔ a.warnings ⊆ ws ∧ Hears ws b :=
  List.forall_mem_cons

theorem Hears.left {a b : List Note} (h : Hears ws (a ++ b)) : Hears ws a := (hears_append.mp h).1

theorem Hears.right {a b : List Note} (h : Hears ws (a ++ b)) : Hears ws b := (hears_append.mp h).2

theorem hears_functionWarnings {scope : Scope} {params : List Param} {isEmpty : Bool} {pos : Pos}
    {notes : List Note} (h : functionWarnings scope name params isEmpty pos notes ⊆ ws) :
    paramWarnings params ⊆ ws ∧ Hears ws notes := by
  simp only [functionWarnings, List.append_subset] at h
  refine ⟨h.1.1.1.1.2, fun note hm w hw => h.1.1.1.2 ?_⟩
  exact List.mem_flatMap.mpr ⟨note, hm, hw⟩

theorem flags_simpleBinding {pattern : Pattern}
    (hb : bindingName binder pattern = .ok name) (hws : Hears ws (simpleBinding pattern)) :
    IsTroublesome name → Flags ws name := by
  intro hn
  obtain ⟨isMut, byRef, pos, rfl⟩ := bindingName_ident hb hn
  exact ⟨.variable, pos, hws (.binding name isMut pos) (by simp [simpleBinding])⟩

theorem flags_simpleLoopVariable {pattern : Pattern}
    (hb : bindingName binder pattern = .ok name) (hws : Hears ws (simpleLoopVariable pattern)) :
    IsTroublesome name → Flags ws name := by
  intro hn
  obtain ⟨isMut, byRef, pos, rfl⟩ := bindingName_ident hb hn
  exact ⟨.loopVariable, pos, hws (.loopVariable name pos) (by simp [simpleLoopVariable])⟩

/-! ## Nodes -/

theorem covers_return (h : Covers ws i) : Covers ws (.returnValue i) :=
  .ofParts rfl (by simpa [Ir.Item.parts] using h)

theorem covers_finish {place : Place} (h : Covers ws i) :
    Covers ws (place.finish i) := by
  unfold Place.finish
  split
  · exact covers_return h
  · exact h

theorem covers_literal {place : Place} (i : Ir.Item) (h : IsLiteralNode i) :
    Covers ws (place.finish i) := by
  refine covers_finish ?_
  cases h with
  | bool | string | integer | decimal => exact covers_leaf rfl rfl

theorem covers_binary {op : Ir.BinaryOp} {lhs rhs : Ir.Item} (hl : Covers ws lhs)
    (hr : Covers ws rhs) : Covers ws (.binary op lhs rhs) :=
  .ofParts rfl (by simpa [Ir.Item.parts] using ⟨hl, hr⟩)

theorem covers_minusOne (h : Covers ws i) : Covers ws (minusOne i) := by
  unfold minusOne
  split
  · split
    · exact covers_binary h (covers_leaf rfl rfl)
    · exact covers_leaf rfl rfl
  · exact covers_binary h (covers_leaf rfl rfl)

theorem covers_call {func : Ir.Item} {args : List Ir.Item} (hf : Covers ws func)
    (ha : ∀ i ∈ args, Covers ws i) : Covers ws (.call func args) :=
  .ofParts rfl (by simpa [Ir.Item.parts] using ⟨hf, ha⟩)

theorem covers_array {elements : List Ir.Item} (h : ∀ i ∈ elements, Covers ws i) :
    Covers ws (.array elements) :=
  .ofParts rfl (by simpa [Ir.Item.parts] using h)

theorem covers_whileLoop {cond : Ir.Item} (hc : Covers ws cond)
    (hb : ∀ i ∈ body, Covers ws i) : Covers ws (.whileLoop cond body) :=
  .ofParts rfl (by simpa [Ir.Item.parts] using ⟨hc, hb⟩)

theorem covers_varSet {n : Bytes} (h : Covers ws i) : Covers ws (.varSet n i) :=
  .ofParts rfl (by simpa [Ir.Item.parts] using h)

theorem covers_forRange {var : Bytes} {min max step : Ir.Item}
    (hv : IsTroublesome var → Flags ws var) (hmin : Covers ws min) (hmax : Covers ws max)
    (hs : Covers ws step) (hb : ∀ i ∈ body, Covers ws i) :
    Covers ws (.forRange var min max step body) :=
  .intro (by simpa [Ir.Item.binders] using hv)
    (by simpa [Ir.Item.parts] using ⟨hmin, hmax, hs, hb⟩)

/-- The head of a loop has no variable yet. -/
theorem covers_rangeHead {min max : Ir.Item} (hmin : Covers ws min) (hmax : Covers ws max) :
    Covers ws (rangeHead min max) :=
  covers_forRange (fun h => absurd h not_isTroublesome_nil) hmin hmax (covers_leaf rfl rfl)
    (by simp)

theorem covers_withStep {step head : Ir.Item} (hs : Covers ws step) (hh : Covers ws head) :
    Covers ws (withStep step head) := by
  unfold withStep
  split
  · rename_i var min max _ body
    refine covers_forRange (hh false _ _ .self var (by simp [Ir.Item.binders]))
      (hh.part (w := .inside) ?_) (hh.part (w := .inside) ?_) hs
      fun i hi => hh.part (w := .loopBody) ?_
    · simp [Ir.Item.parts]
    · simp [Ir.Item.parts]
    · simp [Ir.Item.parts, hi]
  · exact hh

theorem covers_loopOver {var : Bytes} {head : Ir.Item}
    (hv : IsTroublesome var → Flags ws var) (hb : ∀ i ∈ body, Covers ws i)
    (hh : Covers ws head) : Covers ws (loopOver var body head) := by
  unfold loopOver
  split
  · refine covers_forRange hv (hh.part (w := .inside) ?_) (hh.part (w := .inside) ?_)
      (hh.part (w := .inside) ?_) hb
    · simp [Ir.Item.parts]
    · simp [Ir.Item.parts]
    · simp [Ir.Item.parts]
  · exact .intro (by simpa [Ir.Item.binders] using hv)
      (by simpa [Ir.Item.parts] using ⟨hh, hb⟩)

theorem covers_ifElif {cond : Ir.Item} {elifs : List Ir.Branch}
    {last : Option (List Ir.Item)} (hc : Covers ws cond) (hb : ∀ i ∈ body, Covers ws i)
    (he : ∀ b ∈ elifs, Covers ws b.cond ∧ ∀ i ∈ b.body, Covers ws i)
    (hl : ∀ body ∈ last, ∀ i ∈ body, Covers ws i) : Covers ws (.ifElif cond body elifs last) := by
  refine .ofParts rfl fun p hp => ?_
  simp only [Ir.Item.parts, List.cons_append, List.mem_cons, List.mem_append, List.mem_map,
    List.mem_flatMap] at hp
  rcases hp with rfl | (⟨i, hi, rfl⟩ | ⟨b, hbm, rfl | ⟨i, hi, rfl⟩⟩) | ⟨i, hi, rfl⟩
  · exact hc
  · exact hb i hi
  · exact (he b hbm).1
  · exact (he b hbm).2 i hi
  · cases last with
    | none => cases hi
    | some body => exact hl body rfl i hi

/-! ## Trees -/

mutual

theorem covers_lowerExpr {scope : Scope} {place : Place} :
    (e : Expr) → Hears ws (exprNotes scope e) → Ensures (lowerExpr place e) (Covers ws)
  | .lit _, _ => ensures_lit covers_literal
  | .path _ _, _ => .pure (covers_finish (covers_leaf rfl rfl))
  | .call func args _, h =>
    (covers_lowerExpr func h.left).bind fun _ _ hf =>
      (covers_lowerValues args h.right).bind fun _ _ ha => .pure (covers_finish (covers_call hf ha))
  | .methodCall receiver _ [step] _, h => ensures_methodCall fun _ _ =>
    (covers_lowerExpr receiver h.left).bind fun _ _ hr =>
      (covers_lowerExpr step h.right.left).bind fun _ _ hs => .pure (covers_withStep hs hr)
  | .methodCall _ _ [] _, _ | .methodCall _ _ (_ :: _ :: _) _, _ => .error
  | .field _ _ _, _ | .index _ _ _, _ | .ref _ _ _, _ | .cast _ _ _, _ | .letCond _ _ _, _
  | .matchOn _ _ _, _ | .structLit _ _ _, _ | .tryOp _ _, _ => .error
  | .binary _ left right _, h =>
    (covers_lowerExpr left h.left.right).bind fun _ _ hl =>
      (covers_lowerExpr right h.right).bind fun _ _ hr =>
        .pure (covers_finish (covers_binary hl hr))
  | .assign _ value _, h => ensures_statementOnly fun _ =>
    (ensures_true _).bind fun _ _ _ => (covers_lowerExpr value h.right).bind fun _ _ hv =>
      .pure (covers_varSet hv)
  | .assignOp _ _ value _, h => ensures_statementOnly fun _ =>
    (ensures_true _).bind fun _ _ _ => (covers_lowerExpr value h.right).bind fun _ _ hv =>
      .pure (covers_varSet (covers_binary (covers_leaf rfl rfl) hv))
  | .unary _ _ _, _ => ensures_unary fun _ _ => covers_literal
  | .paren inner _, h => .ite (fun _ => covers_lowerExpr inner h) fun _ =>
    (covers_lowerExpr inner h).bind fun _ _ hi => .pure (covers_finish hi)
  | .tuple elements _, h =>
    (covers_lowerValues elements h).bind fun _ _ he => .pure (covers_finish (covers_array he))
  | .array elements none _, h =>
    (covers_lowerValues elements h.left).bind fun _ _ he => .pure (covers_finish (covers_array he))
  | .array _ (some _) _, _ => .error
  | .block _ _ _ _, _ => .ite (fun _ => .error) fun _ => .error
  | .closure params body _ _, h => by
    obtain ⟨hp, h⟩ := hears_cons.mp h
    cases body with
    | block body =>
      obtain ⟨stmts, pos⟩ := body
      refine (ensures_true _).bind fun _ hn _ =>
        (covers_lowerStmts stmts h).bind fun _ _ hs => .pure ?_
      exact covers_finish (.intro (paramNames_flagged hn hp)
        (by simpa [Ir.Item.parts] using covers_collect hs))
    | _ => exact .error
  | .ifElse cond (.mk stmts _) otherwise _, h => ensures_statementOnly fun _ =>
    (covers_lowerExpr cond h.left.left).bind fun _ _ hc =>
      (covers_lowerStmts stmts h.left.right).bind fun _ _ hs =>
        (covers_lowerElse otherwise h.right).bind fun _ _ ho =>
          .pure (covers_ifElif hc (covers_collect hs) ho.1 ho.2)
  | .whileLoop cond (.mk stmts _) _ _, h => ensures_statementOnly fun _ =>
    (covers_lowerExpr cond h.left).bind fun _ _ hc =>
      (covers_lowerStmts stmts h.right).bind fun _ _ hs =>
        .pure (covers_whileLoop hc (covers_collect hs))
  | .loop (.mk stmts _) _ _, h => ensures_statementOnly fun _ =>
    (covers_lowerStmts stmts h).bind fun _ _ hs =>
      .pure (covers_whileLoop (covers_leaf rfl rfl) (covers_collect hs))
  | .forLoop _ iterated (.mk stmts _) _ _, h => ensures_statementOnly fun _ =>
    (ensures_true _).bind fun _ hn _ => (covers_lowerExpr iterated h.left.right).bind fun _ _ hi =>
      (covers_lowerStmts stmts h.right).bind fun _ _ hs =>
        .pure (covers_loopOver (flags_simpleLoopVariable hn h.left.left) (covers_collect hs) hi)
  | .breakOut [] none _, _ | .continueOn [] _, _ =>
    ensures_statementOnly fun _ => .pure (covers_leaf rfl rfl)
  | .breakOut [] (some _) _, _ | .breakOut (_ :: _) _ _, _ | .continueOn (_ :: _) _, _ =>
    ensures_statementOnly fun _ => .error
  | .returnWith none _, _ =>
    ensures_statementOnly fun _ => .pure (covers_return (covers_leaf rfl rfl))
  | .returnWith (some e) _, h => ensures_statementOnly fun _ =>
    (covers_lowerExpr e h).bind fun _ _ he => .pure (covers_return he)
  | .macroCall _ [] _ _, _ => ensures_macroCall_nil fun _ =>
    covers_finish (covers_call (covers_leaf rfl rfl) (by simp))
  | .macroCall _ (e :: es) _ _, h => by
    refine ensures_macroCall (fun _ => ?_) fun _ _ _ hargs => ?_
    · exact (covers_lowerValues (e :: es) h.right).imp fun _ ha =>
        covers_finish (covers_call (covers_leaf rfl rfl) ha)
    · cases hargs
      refine (covers_lowerValues es h.right.right).imp fun _ ha => covers_finish (.ofParts rfl ?_)
      simpa [formatItem, Ir.Item.parts] using ha
  | .range first last inclusive _, h => .ite (fun _ =>
      (covers_lowerBound first h.left).bind fun _ _ hf =>
        (covers_lowerBound last h.right).bind fun _ _ hl => .pure (covers_rangeHead hf (by
          split
          · exact covers_minusOne hl
          · exact hl))) fun _ => .error

theorem covers_lowerValues {scope : Scope} : (es : List Expr) → Hears ws (exprsNotes scope es) →
    Ensures (lowerValues es) fun items => ∀ i ∈ items, Covers ws i
  | [], _ => .pure (by simp)
  | e :: es, h => (covers_lowerExpr e h.left).bind fun _ _ he =>
    (covers_lowerValues es h.right).bind fun _ _ hes => .pure (List.forall_mem_cons.mpr ⟨he, hes⟩)

theorem covers_lowerBound {scope : Scope} :
    (o : Option Expr) → Hears ws (optionNotes scope o) → Ensures (lowerBound o) (Covers ws)
  | none, _ => .pure (covers_leaf rfl rfl)
  | some e, h => covers_lowerExpr e h

theorem covers_lowerElse {scope : Scope} {isTail : Bool} :
    (o : Option Expr) → Hears ws (optionNotes scope o) → Ensures (lowerElse isTail o) fun p =>
      (∀ b ∈ p.1, Covers ws b.cond ∧ ∀ i ∈ b.body, Covers ws i) ∧
        ∀ body ∈ p.2, ∀ i ∈ body, Covers ws i
  | none, _ => .pure (by simp)
  | some e, h => by
    cases e with
    | block body =>
      obtain ⟨stmts, pos⟩ := body
      exact (covers_lowerStmts stmts h).bind fun _ _ hs => .pure (by simpa using covers_collect hs)
    | ifElse cond body otherwise =>
      obtain ⟨stmts, pos⟩ := body
      exact (covers_lowerExpr cond h.left.left).bind fun _ _ hc =>
        (covers_lowerStmts stmts h.left.right).bind fun _ _ hs =>
          (covers_lowerElse otherwise h.right).bind fun _ _ ho =>
            .pure ⟨List.forall_mem_cons.mpr ⟨⟨hc, covers_collect hs⟩, ho.1⟩, ho.2⟩
    | _ => exact .error

theorem covers_lowerStmts {scope : Scope} {isTail : Bool} :
    (ss : List Stmt) → Hears ws (stmtsNotes scope ss) →
      Ensures (lowerStmts isTail ss) fun list => ∀ c ∈ list, CoversContribution ws c
  | [], _ => .pure (by simp)
  | s :: ss, h => (covers_lowerStmt s h.left).bind fun _ _ hs =>
    (covers_lowerStmts ss h.right).bind fun _ _ hss => .pure (List.forall_mem_cons.mpr ⟨hs, hss⟩)

theorem covers_lowerStmt {scope : Scope} {isTail : Bool} :
    (s : Stmt) → Hears ws (stmtNotes scope s) → Ensures (lowerStmt isTail s) (CoversContribution ws)
  | .binding _ _ none _ _, _ | .binding _ _ (some _) (some _) _, _ =>
    (ensures_true _).bind fun _ _ _ => .error
  | .binding _ _ (some e) none _, h => (ensures_true _).bind fun _ hn _ =>
    (covers_lowerExpr e h.left.right).bind fun _ _ he =>
      .pure (.intro (by simpa [Ir.Item.binders] using flags_simpleBinding hn h.left.left)
        (by simpa [Ir.Item.parts] using he))
  | .item i, h => covers_lowerItem i (hears_cons.mp h).1
  | .expr e _, h => (covers_lowerExpr e h).bind fun _ _ he => .pure he

theorem covers_lowerItem {scope : Scope} :
    (i : Item) → itemWarnings scope i ⊆ ws → Ensures (lowerItem i) (CoversContribution ws)
  | .fn _ _ _ none _ _ pos, h => .pure fun n hn _ => by
    obtain rfl := List.mem_singleton.mp hn
    exact ⟨.function, pos, (List.append_subset.mp h).1⟩
  | .fn _ params _ (some (.mk stmts _)) _ _ pos, h => by
    obtain ⟨hname, h⟩ := List.append_subset.mp h
    obtain ⟨hp, hnotes⟩ := hears_functionWarnings h
    refine (ensures_true _).bind fun _ hn _ => (covers_lowerStmts stmts hnotes).bind fun _ _ hs =>
      .pure (.intro (List.forall_mem_cons.mpr ⟨fun _ => ⟨.function, pos, hname⟩, ?_⟩) ?_)
    · exact paramNames_flagged hn hp
    · simpa [Ir.Item.parts] using covers_collect hs
  | .foreign _ items _, h => .pure fun n hn _ => by
    obtain ⟨f, hf, rfl⟩ := List.mem_map.mp hn
    exact ⟨.externName, f.pos, fun w hw => h (List.mem_flatMap.mpr ⟨f, hf, hw⟩)⟩
  | .inlineModule _ items pos, h => by
    obtain ⟨hname, h⟩ := List.append_subset.mp h
    refine (covers_lowerItems items h).bind fun _ _ hs => .pure (.intro ?_ ?_)
    · simpa [Ir.Item.binders] using fun _ => ⟨.module, pos, hname⟩
    · simpa [Ir.Item.parts] using covers_collect hs
  | .fileModule _ _, _ | .use _ _, _ | .const _ _ _ _ _, _ | .impl _ _ _ _, _
  | .typeDef _ _ _, _ => .error

theorem covers_lowerItems {scope : Scope} :
    (is : List Item) → itemsWarnings scope is ⊆ ws →
      Ensures (lowerItems is) fun list => ∀ c ∈ list, CoversContribution ws c
  | [], _ => .pure (by simp)
  | i :: is, h => (covers_lowerItem i (List.append_subset.mp h).1).bind fun _ _ hi =>
    (covers_lowerItems is (List.append_subset.mp h).2).bind fun _ _ his =>
      .pure (List.forall_mem_cons.mpr ⟨hi, his⟩)

end

theorem flags_of_lowerFile {file : File} {program : Ir.Program} (h : lowerFile file = .ok program)
    (hb : program.Binds name) (hn : IsTroublesome name) : Flags (warnings file) name := by
  obtain ⟨list, hl, h⟩ := bind_eq_ok.mp h
  cases h
  obtain ⟨inLoop, x, ⟨i, hi, hx⟩, hx'⟩ := hb
  have hws : itemsWarnings {} file.items ⊆ warnings file := fun _ hw => hw
  exact covers_collect (covers_lowerItems file.items hws list hl) i hi _ _ _ hx name hx' hn

theorem reservedName_mem_of_flags (h : Flags ws name) (hn : Lua.isReserved name = true) :
    ∃ role pos, ⟨.reservedName role name, pos⟩ ∈ ws := by
  obtain ⟨role, pos, hws⟩ := h
  rw [nameWarnings, if_pos hn] at hws
  exact ⟨role, pos, hws (by simp)⟩

theorem isReserved_of_isRuntimeName (hn : isRuntimeName name = true) :
    Lua.isReserved name = false := by
  obtain ⟨n, hm, hname⟩ := List.any_eq_true.mp hn
  obtain rfl := of_decide_eq_true hname
  revert n
  decide

theorem shadowedGlobal_mem_of_flags (h : Flags ws name) (hn : isRuntimeName name = true) :
    ∃ role pos, ⟨.shadowedGlobal role name, pos⟩ ∈ ws := by
  obtain ⟨role, pos, hws⟩ := h
  rw [nameWarnings, if_neg (by simp [isReserved_of_isRuntimeName hn]), if_pos hn] at hws
  exact ⟨role, pos, hws (by simp)⟩

/-- A source that passes all checks is linted without gaps: a name that its program binds
anywhere has a warning of its own if Lua reserves it, and one if output refers to it. -/
theorem bound_names_linted {source : Bytes} {checked : Build.Checked}
    (h : Build.check source = .ok checked) (hb : checked.program.Binds name) :
    Parser.parseFile source = .ok checked.file ∧
    (Lua.isReserved name = true →
      ∃ role pos, ⟨.reservedName role name, pos⟩ ∈ warnings checked.file) ∧
    (isRuntimeName name = true →
      ∃ role pos, ⟨.shadowedGlobal role name, pos⟩ ∈ warnings checked.file) := by
  obtain ⟨file, hp, h⟩ := bind_eq_ok.mp h
  obtain ⟨program, hl, h⟩ := bind_eq_ok.mp h
  rw [mapError_eq_ok] at hp hl
  split at h
  · cases h
    refine ⟨hp, fun hn => ?_, fun hn => ?_⟩
    · exact reservedName_mem_of_flags (flags_of_lowerFile hl hb (.inl hn)) hn
    · exact shadowedGlobal_mem_of_flags (flags_of_lowerFile hl hb (.inr hn)) hn
  · cases h

/-- A parameter and a loop variable in a function of a closure that is an argument. -/
def closureNames : List Ir.Item → List Bytes
  | [.function _ _ [.call _ [.closure _ [.function _ [p] [.forRange v _ _ _ _]]]]] => [p, v]
  | _ => []

/-- The function with the parameter stands in a block of a closure that is an argument. -/
theorem bound_names_linted_in_closure :
    ∃ checked, Build.check "fn f()\x7bg(||\x7bfn h(end:T)\x7bfor math in 0..2\x7b\x7d\x7d\x7d)\x7d" = .ok checked ∧
      checked.program.Binds "end" ∧ checked.program.Binds "math" ∧
      (∃ role pos, ⟨.reservedName role "end", pos⟩ ∈ warnings checked.file) ∧
      ∃ role pos, ⟨.shadowedGlobal role "math", pos⟩ ∈ warnings checked.file := by
  have hprogram : (Build.check
      "fn f()\x7bg(||\x7bfn h(end:T)\x7bfor math in 0..2\x7b\x7d\x7d\x7d)\x7d").toOption.map
      (fun checked => closureNames checked.program.items) = some [("end" : Bytes), "math"] := by
    decide +kernel
  obtain ⟨checked, hc, hnames⟩ := Option.map_eq_some_iff.mp hprogram
  have hc := ok_of_toOption hc
  unfold closureNames at hnames
  split at hnames
  · rename_i f params func closureParams h p v min max step body hitems
    cases hnames
    -- the function inside, and with it the loop, three levels below the one outside
    have hfunction (c : Bool) (x : Ir.Item) (hx : Ir.Occurs false
        (.function h ["end"] [.forRange "math" min max step body]) c x) :
        checked.program.Holds c x := by
      refine ⟨_, by rw [hitems]; exact List.mem_singleton.mpr rfl,
        .part (w := .functionBody) (List.mem_singleton.mpr rfl) <|
          .part (w := .inside) (List.mem_cons_of_mem _ (List.mem_singleton.mpr rfl)) <|
          .part (w := .functionBody) (List.mem_singleton.mpr rfl) hx⟩
    have hend : checked.program.Binds "end" :=
      ⟨_, _, hfunction _ _ .self, by simp [Ir.Item.binders]⟩
    have hmath : checked.program.Binds "math" := by
      refine ⟨_, _, hfunction _ _ (.part (w := .functionBody) (List.mem_singleton.mpr rfl) .self), ?_⟩
      exact List.mem_singleton.mpr rfl
    exact ⟨checked, hc, hend, hmath, (bound_names_linted hc hend).2.1 (by decide),
      (bound_names_linted hc hmath).2.2 (by decide)⟩
  · cases hnames

end Lint
end RustLua
