import Mathlib.Data.List.Forall2
import RustLua.Ir.Basic
import RustLua.Tree.Basic

/-! # Walks through statements

A walk goes through a tree from left to right and stops where a body is entered or left and at
every statement in between. The bodies of closures are met where the closure stands in an
expression. Trees and the intermediate form are walked through alike, so that two walks can be
compared stop by stop; parentheses, operators and calls leave no trace. -/
namespace RustLua

/-- What a body belongs to. -/
inductive BodyKind where
  | file | module | function | closure | branch | loop
deriving DecidableEq, Repr

/-- A stop: at a body, at a statement, or at a node that is not where it belongs. -/
inductive Stop (β σ : Type) where
  | enter (kind : BodyKind) (body : β)
  | statement (s : σ)
  | stray
  | leave

abbrev Walk (β σ : Type) := List (Stop β σ)

section
variable {β σ γ τ : Type} {B B' : β → γ → Prop} {S S' : σ → τ → Prop}

/-- A body with the walk through it. -/
def Walk.body (kind : BodyKind) (whole : β) (inside : Walk β σ) : Walk β σ :=
  .enter kind whole :: inside ++ [.leave]

/-- The bodies that are entered, in this order. -/
def Walk.bodies (walk : Walk β σ) : List β :=
  walk.filterMap fun
    | .enter _ body => some body
    | _ => none

/-- Stops at the same place of two trees, the bodies related by `B` and the statements by `S`. -/
inductive Stop.Matches (B : β → γ → Prop) (S : σ → τ → Prop) : Stop β σ → Stop γ τ → Prop
  | enter {kind : BodyKind} {b : β} {c : γ} (h : B b c) :
      Matches B S (.enter kind b) (.enter kind c)
  | statement {s : σ} {t : τ} (h : S s t) : Matches B S (.statement s) (.statement t)
  | leave : Matches B S .leave .leave

/-- Two walks side by side. -/
def Alongside (B : β → γ → Prop) (S : σ → τ → Prop) : Walk β σ → Walk γ τ → Prop :=
  List.Forall₂ (Stop.Matches B S)

variable {v v' : Walk β σ} {w w' : Walk γ τ}

theorem Alongside.nil : Alongside B S [] [] := List.Forall₂.nil

theorem Alongside.append (h : Alongside B S v w) (h' : Alongside B S v' w') :
    Alongside B S (v ++ v') (w ++ w') :=
  List.rel_append h h'

theorem Alongside.statement {s : σ} {t : τ} (hs : S s t) (h : Alongside B S v w) :
    Alongside B S (.statement s :: v) (.statement t :: w) :=
  .cons (.statement hs) h

theorem Alongside.body {b : β} {c : γ} (kind : BodyKind) (hb : B b c) (h : Alongside B S v w) :
    Alongside B S (Walk.body kind b v) (Walk.body kind c w) :=
  .cons (.enter hb) (h.append (.cons .leave .nil))

theorem Alongside.imp (h : Alongside B S v w) (hB : ∀ b c, B b c → B' b c)
    (hS : ∀ s t, S s t → S' s t) : Alongside B' S' v w := by
  refine List.Forall₂.imp (fun x y hxy => ?_) h
  cases hxy with
  | enter hb => exact .enter (hB _ _ hb)
  | statement hs => exact .statement (hS _ _ hs)
  | leave => exact .leave

/-- Nothing is out of place on a walk that goes alongside another. -/
theorem Alongside.not_stray (h : Alongside B S v w) : Stop.stray ∉ w := by
  induction h with
  | nil => simp
  | cons hxy _ ih =>
    cases hxy with
    | enter | statement | leave => simpa using ih

theorem Alongside.bodies (h : Alongside B S v w) : List.Forall₂ B v.bodies w.bodies := by
  induction h with
  | nil => exact .nil
  | cons hxy _ ih =>
    cases hxy with
    | enter hb => exact .cons hb ih
    | statement | leave => exact ih

end

end RustLua

/-! ## Trees -/

namespace RustLua.Tree

/-- The names that an item declares. Only a declaration has any, and a foreign block may have
none. -/
def Item.externNames? : Item → Option (List Bytes)
  | .fn name _ _ none _ _ _ => some [name]
  | .foreign _ items _ => some (items.map (·.name))
  | _ => none

def Stmt.externNames? : Stmt → Option (List Bytes)
  | .item i => i.externNames?
  | _ => none

/-- A sequence that is lowered as a whole. `isTail` says whether the last statement of a block
stands in tail position. -/
inductive Sequence where
  | items (list : List Item)
  | block (isTail : Bool) (stmts : List Stmt)

/-- A statement, and whether it is an expression in tail position. -/
structure Site where
  stmt : Stmt
  inTail : Bool

abbrev Walk := RustLua.Walk Sequence Site

mutual

/-- The bodies in an expression, of which `isTail` says whether it stands in tail position.
So do the branches of an `if` then. A closure starts anew, and a loop ends it. What is never
lowered is not walked through. -/
def walkExpr (isTail : Bool) : Expr → Walk
  | .call func args _ => walkExpr false func ++ walkExprs args
  | .methodCall receiver _ args _ => walkExpr false receiver ++ walkExprs args
  | .binary _ left right _ => walkExpr false left ++ walkExpr false right
  | .assign _ value _ | .assignOp _ _ value _ | .paren value _ => walkExpr false value
  | .tuple elements _ | .array elements _ _ => walkExprs elements
  | .closure _ (.block (.mk stmts _) _ _ _) _ _ =>
    Walk.body .closure (.block true stmts) (walkStmts true stmts)
  | .ifElse cond (.mk stmts _) otherwise _ =>
    walkExpr false cond ++ Walk.body .branch (.block isTail stmts) (walkStmts isTail stmts) ++
      walkElse isTail otherwise
  | .whileLoop cond (.mk stmts _) _ _ | .forLoop _ cond (.mk stmts _) _ _ =>
    walkExpr false cond ++ Walk.body .loop (.block false stmts) (walkStmts false stmts)
  | .loop (.mk stmts _) _ _ => Walk.body .loop (.block false stmts) (walkStmts false stmts)
  | .returnWith value _ => walkExpr? value
  | .macroCall _ args _ _ => walkExprs args
  | .range first last _ _ => walkExpr? first ++ walkExpr? last
  | _ => []

def walkExprs : List Expr → Walk
  | [] => []
  | e :: es => walkExpr false e ++ walkExprs es

def walkExpr? : Option Expr → Walk
  | none => []
  | some e => walkExpr false e

/-- The further branches of an `if`. -/
def walkElse (isTail : Bool) : Option Expr → Walk
  | some (.block (.mk stmts _) _ _ _) =>
    Walk.body .branch (.block isTail stmts) (walkStmts isTail stmts)
  | some (.ifElse cond (.mk stmts _) otherwise _) =>
    walkExpr false cond ++ Walk.body .branch (.block isTail stmts) (walkStmts isTail stmts) ++
      walkElse isTail otherwise
  | _ => []

/-- The statements of a block. In tail position is at most the last of them. -/
def walkStmts (isTail : Bool) : List Stmt → Walk
  | [] => []
  | s :: ss => walkStmt (isTail && ss.isEmpty) s ++ walkStmts isTail ss

/-- A semicolon takes an expression out of tail position. -/
def walkStmt (isTail : Bool) : Stmt → Walk
  | .binding pattern type init otherwise pos =>
    .statement ⟨.binding pattern type init otherwise pos, false⟩ :: walkExpr? init
  | .item i => walkItem i
  | .expr e semi => .statement ⟨.expr e semi, isTail && !semi⟩ :: walkExpr (isTail && !semi) e

/-- A declaration of extern names is no statement of its own. The body of a function is in tail
position if the function returns a value. -/
def walkItem : Item → Walk
  | .fn name params returns (some (.mk stmts blockPos)) abi isPublic pos =>
    .statement
        ⟨.item (.fn name params returns (some (.mk stmts blockPos)) abi isPublic pos), false⟩ ::
      Walk.body .function (.block (returnsValue returns) stmts)
        (walkStmts (returnsValue returns) stmts)
  | .inlineModule name items pos =>
    .statement ⟨.item (.inlineModule name items pos), false⟩ ::
      Walk.body .module (.items items) (walkItems items)
  | _ => []

def walkItems : List Item → Walk
  | [] => []
  | i :: is => walkItem i ++ walkItems is

end

def File.walk (file : File) : Walk := Walk.body .file (.items file.items) (walkItems file.items)

end RustLua.Tree

/-! ## The intermediate form -/

namespace RustLua.Ir

abbrev Walk := RustLua.Walk (List Item) Item

mutual

/-- The bodies in a node. A return is out of place as a value, and an extern node everywhere but
in a sequence. -/
def walkNode (asValue : Bool) : Item → Walk
  | .function _ _ body => Walk.body .function body (walkNodes body)
  | .closure _ body => Walk.body .closure body (walkNodes body)
  | .mod _ items => Walk.body .module items (walkNodes items)
  | .externs _ => [.stray]
  | .returnValue value => if asValue then .stray :: walkNode true value else walkNode true value
  | .varDecl _ value | .varSet _ value => walkNode true value
  | .ifElif cond body elifs otherwise =>
    walkNode true cond ++ Walk.body .branch body (walkNodes body) ++
      (walkElifs elifs ++ walkOtherwise otherwise)
  | .whileLoop cond body | .forIn _ cond body =>
    walkNode true cond ++ Walk.body .loop body (walkNodes body)
  | .forRange _ min max step body =>
    walkNode true min ++ walkNode true max ++ walkNode true step ++
      Walk.body .loop body (walkNodes body)
  | .call func args => walkNode true func ++ walkValues args
  | .array elements => walkValues elements
  | .format _ _ values => walkValues values
  | .binary _ lhs rhs => walkNode true lhs ++ walkNode true rhs
  | .missing | .breakLoop | .continueLoop | .ident _ | .bool _ | .integer _ | .decimal _
  | .string _ => []

def walkValues : List Item → Walk
  | [] => []
  | i :: is => walkNode true i ++ walkValues is

def walkElifs : List Branch → Walk
  | [] => []
  | .mk cond body :: elifs =>
    walkNode true cond ++ Walk.body .branch body (walkNodes body) ++ walkElifs elifs

def walkOtherwise : Option (List Item) → Walk
  | none => []
  | some body => Walk.body .branch body (walkNodes body)

/-- The nodes of a sequence, of which those with extern names are no statements. -/
def walkNodes : List Item → Walk
  | [] => []
  | .externs _ :: is => walkNodes is
  | i :: is => .statement i :: walkNode false i ++ walkNodes is

end

def Program.walk (program : Program) : Walk :=
  Walk.body .file program.items (walkNodes program.items)

end RustLua.Ir
