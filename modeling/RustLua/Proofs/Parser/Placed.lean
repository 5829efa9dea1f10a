import RustLua.Parser.File
import RustLua.Proofs.Parser.Genuine
import RustLua.Proofs.Parser.Places

/-! # Trees that stand in the source

A tree is placed if each of its nodes stands at a token, its names, literals and operators are
tokens, and its texts are put together from tokens. Most productions give a node the token that
they start with, operators the position of what stands left of them. One node stands inside a
token: `&&` is two references, and the inner one is a column further. -/
namespace RustLua.Parser

open RustLua.Tree

section Definitions

variable (tokens : List Token)

/-- The text of a part of these tokens. -/
def IsText (text : Bytes) : Prop := ∃ run, run <:+: tokens ∧ text = tokenText false run

inductive PlacedPattern : Pattern → Prop
  | ident {name : Bytes} {isMut byRef : Bool} {pos : Pos} (hp : Stands tokens pos)
      (hn : IsName tokens name) : PlacedPattern (.ident name isMut byRef pos)
  | wild {pos : Pos} (hp : Stands tokens pos)
      (ho : Occurs tokens .underscore ∨ Occurs tokens .dotDot) : PlacedPattern (.wild pos)
  | tuple {elems : List Pattern} {pos : Pos} (hp : Stands tokens pos)
      (he : ∀ p ∈ elems, PlacedPattern p) : PlacedPattern (.tuple elems pos)
  | lit {l : Literal} (hp : Stands tokens l.pos) (hl : IsLiteral tokens l.kind l.value) :
      PlacedPattern (.lit l)
  | negative {kind : LiteralKind} {value : Bytes} {pos : Pos} (hp : Stands tokens pos)
      (hl : IsLiteral tokens kind value) (ho : Occurs tokens .minus) :
      PlacedPattern (.lit ⟨kind, Ascii.minus :: value, pos⟩)
  | path {segments : List Bytes} {pos : Pos} (hp : Stands tokens pos)
      (hs : Segments tokens segments) : PlacedPattern (.path segments pos)
  | applied {segments : List Bytes} {elems : List Pattern} {pos : Pos} (hp : Stands tokens pos)
      (hs : Segments tokens segments) (he : ∀ p ∈ elems, PlacedPattern p) :
      PlacedPattern (.applied segments elems pos)
  | either {first : Pattern} {others : List Pattern} (hf : PlacedPattern first)
      (ho : ∀ p ∈ others, PlacedPattern p) : PlacedPattern (.either first others)
  | ref {inner : Pattern} {pos : Pos} (hp : Stands tokens pos) (hi : PlacedPattern inner) :
      PlacedPattern (.ref inner pos)

/-- A receiver stands for the word `self`, which no pattern has to spell. -/
inductive PlacedParam : Param → Prop
  | receiver {type : Option TypeText} {pos : Pos} (ht : ∀ x ∈ type, IsText tokens x.text)
      (hp : Stands tokens pos) (ho : Occurs tokens .kwSelf) :
      PlacedParam ⟨.ident "self" false false pos, type, true, pos⟩
  | plain {pattern : Pattern} {type : Option TypeText} {pos : Pos}
      (ht : ∀ x ∈ type, IsText tokens x.text) (hq : PlacedPattern tokens pattern) :
      PlacedParam ⟨pattern, type, false, pos⟩

/-- A block that was read, quietly, somewhere in these tokens. -/
def BlockRead (b : Block) : Prop :=
  ∃ depth s t, s.ahead <:+ tokens ∧ block (grammar depth) s = some (b, t) ∧ t.bag = s.bag

mutual

inductive PlacedExpr : Expr → Prop
  | lit {l : Literal} (hp : Stands tokens l.pos) (hl : IsLiteral tokens l.kind l.value) :
      PlacedExpr (.lit l)
  | path {segments : List Bytes} {pos : Pos} (hp : Stands tokens pos)
      (hs : Segments tokens segments) : PlacedExpr (.path segments pos)
  | call {func : Expr} {args : List Expr} {pos : Pos} (hp : Stands tokens pos)
      (hf : PlacedExpr func) (ha : ∀ e ∈ args, PlacedExpr e) : PlacedExpr (.call func args pos)
  | methodCall {receiver : Expr} {method : Bytes} {args : List Expr} {pos : Pos}
      (hp : Stands tokens pos) (hr : PlacedExpr receiver) (hn : IsName tokens method)
      (ha : ∀ e ∈ args, PlacedExpr e) : PlacedExpr (.methodCall receiver method args pos)
  | field {base : Expr} {name : Bytes} {pos : Pos} (hp : Stands tokens pos)
      (hb : PlacedExpr base) (hn : IsMember tokens name) : PlacedExpr (.field base name pos)
  | index {base offset : Expr} {pos : Pos} (hp : Stands tokens pos) (hb : PlacedExpr base)
      (ho : PlacedExpr offset) : PlacedExpr (.index base offset pos)
  | binary {op : BinaryOp} {left right : Expr} {pos : Pos} (hp : Stands tokens pos)
      (ho : Occurs tokens op.kind) (hl : PlacedExpr left) (hr : PlacedExpr right) :
      PlacedExpr (.binary op left right pos)
  | assign {target value : Expr} {pos : Pos} (hp : Stands tokens pos) (ht : PlacedExpr target)
      (hv : PlacedExpr value) : PlacedExpr (.assign target value pos)
  | assignOp {op : AssignOp} {target value : Expr} {pos : Pos} (hp : Stands tokens pos)
      (ho : Occurs tokens op.kind) (ht : PlacedExpr target) (hv : PlacedExpr value) :
      PlacedExpr (.assignOp op target value pos)
  | unary {op : UnaryOp} {operand : Expr} {pos : Pos} (hp : Stands tokens pos)
      (ho : PlacedExpr operand) : PlacedExpr (.unary op operand pos)
  | ref {isMut : Bool} {operand : Expr} {pos : Pos} (hp : Stands tokens pos)
      (ho : PlacedExpr operand) : PlacedExpr (.ref isMut operand pos)
  /-- The one node that stands at no token, inside one that does. -/
  | doubleRef {isMut : Bool} {operand : Expr} {pos : Pos} (hp : Stands tokens pos)
      (ho : PlacedExpr operand) :
      PlacedExpr (.ref false (.ref isMut operand (pos.right 1)) pos)
  | cast {operand : Expr} {type : TypeText} {pos : Pos} (hp : Stands tokens pos)
      (ht : IsText tokens type.text) (ho : PlacedExpr operand) : PlacedExpr (.cast operand type pos)
  | paren {inner : Expr} {pos : Pos} (hp : Stands tokens pos) (hi : PlacedExpr inner) :
      PlacedExpr (.paren inner pos)
  | tuple {elements : List Expr} {pos : Pos} (hp : Stands tokens pos)
      (he : ∀ e ∈ elements, PlacedExpr e) : PlacedExpr (.tuple elements pos)
  | array {elements : List Expr} {length : Option Expr} {pos : Pos} (hp : Stands tokens pos)
      (he : ∀ e ∈ elements, PlacedExpr e) (hl : ∀ e ∈ length, PlacedExpr e) :
      PlacedExpr (.array elements length pos)
  | block {body : Block} {isUnsafe : Bool} {label : Bytes} {pos : Pos} (hp : Stands tokens pos)
      (hb : PlacedBlock body) : PlacedExpr (.block body isUnsafe label pos)
  | closure {params : List Param} {body : Expr} {isMove : Bool} {pos : Pos}
      (hp : Stands tokens pos) (hq : ∀ p ∈ params, PlacedParam tokens p) (hb : PlacedExpr body) :
      PlacedExpr (.closure params body isMove pos)
  | ifElse {cond : Expr} {body : Block} {otherwise : Option Expr} {pos : Pos}
      (hp : Stands tokens pos) (hc : PlacedExpr cond) (hb : PlacedBlock body)
      (ho : ∀ e ∈ otherwise, PlacedExpr e) (hs : ∀ e ∈ otherwise, isElseBranch e = true) :
      PlacedExpr (.ifElse cond body otherwise pos)
  | letCond {pattern : Pattern} {value : Expr} {pos : Pos} (hp : Stands tokens pos)
      (hq : PlacedPattern tokens pattern) (hv : PlacedExpr value) :
      PlacedExpr (.letCond pattern value pos)
  | whileLoop {cond : Expr} {body : Block} {label : Bytes} {pos : Pos} (hp : Stands tokens pos)
      (hc : PlacedExpr cond) (hb : PlacedBlock body) : PlacedExpr (.whileLoop cond body label pos)
  | loop {body : Block} {label : Bytes} {pos : Pos} (hp : Stands tokens pos)
      (hb : PlacedBlock body) : PlacedExpr (.loop body label pos)
  | forLoop {pattern : Pattern} {iterated : Expr} {body : Block} {label : Bytes} {pos : Pos}
      (hp : Stands tokens pos) (hq : PlacedPattern tokens pattern) (hi : PlacedExpr iterated)
      (hb : PlacedBlock body) : PlacedExpr (.forLoop pattern iterated body label pos)
  | breakOut {label : Bytes} {value : Option Expr} {pos : Pos} (hp : Stands tokens pos)
      (hv : ∀ e ∈ value, PlacedExpr e) : PlacedExpr (.breakOut label value pos)
  | continueOn {label : Bytes} {pos : Pos} (hp : Stands tokens pos) :
      PlacedExpr (.continueOn label pos)
  | returnWith {value : Option Expr} {pos : Pos} (hp : Stands tokens pos)
      (hv : ∀ e ∈ value, PlacedExpr e) : PlacedExpr (.returnWith value pos)
  | macroCall {path : List Bytes} {args : List Expr} {isOpaque : Bool} {pos : Pos}
      (hp : Stands tokens pos) (hs : Segments tokens path) (ha : ∀ e ∈ args, PlacedExpr e) :
      PlacedExpr (.macroCall path args isOpaque pos)
  | range {first last : Option Expr} {inclusive : Bool} {pos : Pos} (hp : Stands tokens pos)
      (hf : ∀ e ∈ first, PlacedExpr e) (hl : ∀ e ∈ last, PlacedExpr e) :
      PlacedExpr (.range first last inclusive pos)
  | matchOn {scrutinee : Expr} {arms : List Arm} {pos : Pos} (hp : Stands tokens pos)
      (hs : PlacedExpr scrutinee) (ha : ∀ a ∈ arms, PlacedArm a) :
      PlacedExpr (.matchOn scrutinee arms pos)
  | structLit {path : List Bytes} {fields : List FieldInit} {pos : Pos} (hp : Stands tokens pos)
      (hs : Segments tokens path) (hf : ∀ f ∈ fields, PlacedField f) :
      PlacedExpr (.structLit path fields pos)
  | tryOp {operand : Expr} {pos : Pos} (hp : Stands tokens pos) (ho : PlacedExpr operand) :
      PlacedExpr (.tryOp operand pos)

inductive PlacedArm : Arm → Prop
  | mk {pattern : Pattern} {guard : Option Expr} {body : Expr}
      (hq : PlacedPattern tokens pattern) (hg : ∀ e ∈ guard, PlacedExpr e)
      (hb : PlacedExpr body) : PlacedArm (.mk pattern guard body)

inductive PlacedField : FieldInit → Prop
  | value {name : Bytes} {value : Expr} (hn : IsFieldName tokens name) (hv : PlacedExpr value) :
      PlacedField (.mk name value)
  | base {value : Expr} (ho : Occurs tokens .dotDot) (hv : PlacedExpr value) :
      PlacedField (.mk ".." value)
  | index {t : Token} {pos : Pos} (hp : Stands tokens pos) (ht : t ∈ tokens)
      (hk : t.kind = .intLit) : PlacedField (.mk t.literal (.path [t.literal] pos))

inductive PlacedBlock : Block → Prop
  | mk {stmts : List Stmt} {pos : Pos} (hp : Stands tokens pos) (hs : ∀ s ∈ stmts, PlacedStmt s)
      (hr : BlockRead tokens (.mk stmts pos)) : PlacedBlock (.mk stmts pos)

inductive PlacedStmt : Stmt → Prop
  | binding {pattern : Pattern} {type : Option TypeText} {init : Option Expr}
      {otherwise : Option Block} {pos : Pos} (hp : Stands tokens pos)
      (ht : ∀ x ∈ type, IsText tokens x.text) (hq : PlacedPattern tokens pattern)
      (hi : ∀ e ∈ init, PlacedExpr e) (ho : ∀ b ∈ otherwise, PlacedBlock b) :
      PlacedStmt (.binding pattern type init otherwise pos)
  | item {i : Item} (hi : PlacedItem i) : PlacedStmt (.item i)
  | expr {e : Expr} {semi : Bool} (he : PlacedExpr e) : PlacedStmt (.expr e semi)

inductive PlacedItem : Item → Prop
  | fn {name : Bytes} {params : List Param} {returns : Option TypeText} {body : Option Block}
      {abi : Bytes} {isPublic : Bool} {pos : Pos} (hp : Stands tokens pos)
      (hn : IsName tokens name) (hq : ∀ p ∈ params, PlacedParam tokens p)
      (ht : ∀ x ∈ returns, IsText tokens x.text) (hb : ∀ b ∈ body, PlacedBlock b) :
      PlacedItem (.fn name params returns body abi isPublic pos)
  | foreign {abi : Bytes} {items : List ForeignItem} {pos : Pos} (hp : Stands tokens pos)
      (hi : ∀ i ∈ items, IsName tokens i.name) : PlacedItem (.foreign abi items pos)
  | inlineModule {name : Bytes} {items : List Item} {pos : Pos} (hp : Stands tokens pos)
      (hn : IsName tokens name) (hi : ∀ i ∈ items, PlacedItem i) :
      PlacedItem (.inlineModule name items pos)
  | fileModule {name : Bytes} {pos : Pos} (hp : Stands tokens pos) (hn : IsName tokens name) :
      PlacedItem (.fileModule name pos)
  | use {path : Bytes} {pos : Pos} (hp : Stands tokens pos) (hx : IsText tokens path) :
      PlacedItem (.use path pos)
  | externCrate {text : Bytes} {pos : Pos} (hp : Stands tokens pos) (hx : IsText tokens text) :
      PlacedItem (.use ("extern crate " ++ text) pos)
  | const {name : Bytes} {isStatic : Bool} {type : Option TypeText} {value : Option Expr}
      {pos : Pos} (hp : Stands tokens pos) (ht : ∀ x ∈ type, IsText tokens x.text)
      (hn : IsName tokens name ∨ name = "_" ∧ Occurs tokens .underscore)
      (hv : ∀ e ∈ value, PlacedExpr e) : PlacedItem (.const name isStatic type value pos)
  | impl {type trait : Bytes} {items : List Item} {pos : Pos} (hp : Stands tokens pos)
      (ht : IsText tokens type) (hr : IsText tokens trait) (hi : ∀ i ∈ items, PlacedItem i) :
      PlacedItem (.impl type trait items pos)
  | typeDef {keyword name : Bytes} {pos : Pos} (hp : Stands tokens pos) (hn : IsName tokens name) :
      PlacedItem (.typeDef keyword name pos)

end

end Definitions

variable {tokens : List Token}

theorem PlacedExpr.stands {e : Expr} (h : PlacedExpr tokens e) : Stands tokens e.pos := by
  cases h <;> assumption

theorem PlacedPattern.stands {p : Pattern} (h : PlacedPattern tokens p) :
    Stands tokens p.pos := by
  induction h with
  | either _ _ ih _ => exact ih
  | _ => assumption

/-- The body of a function was read in these tokens. -/
theorem PlacedItem.blockRead {name abi : Bytes} {params : List Param} {returns : Option TypeText}
    {b : Block} {isPublic : Bool} {pos : Pos}
    (h : PlacedItem tokens (.fn name params returns (some b) abi isPublic pos)) :
    BlockRead tokens b := by
  cases h with
  | fn _ _ _ _ hb =>
    cases hb b rfl with
    | mk _ _ hr => exact hr

/-! ## Genuine trees -/

theorem PlacedPattern.genuine {p : Pattern} (h : PlacedPattern tokens p) :
    GenuinePattern tokens p := by
  induction h with
  | ident _ hn => exact .ident hn
  | wild _ ho => exact .wild ho
  | tuple _ _ ih => exact .tuple ih
  | lit _ hl => exact .lit hl
  | negative _ hl ho => exact .negative hl ho
  | path _ hs => exact .path hs
  | applied _ hs _ ih => exact .applied hs ih
  | either _ _ hf ho => exact .either hf ho
  | ref _ _ ih => exact .ref ih

theorem PlacedParam.genuine {p : Param} (h : PlacedParam tokens p) : GenuineParam tokens p := by
  cases h with
  | receiver _ _ ho => exact .receiver ho
  | plain _ hq => exact .plain hq.genuine

mutual

theorem PlacedExpr.genuine : {e : Expr} → PlacedExpr tokens e → GenuineExpr tokens e
  | _, .lit _ hl => .lit hl
  | _, .path _ hs => .path hs
  | _, .call _ hf ha => .call hf.genuine fun e he => (ha e he).genuine
  | _, .methodCall _ hr hn ha => .methodCall hr.genuine hn fun e he => (ha e he).genuine
  | _, .field _ hb hn => .field hb.genuine hn
  | _, .index _ hb ho => .index hb.genuine ho.genuine
  | _, .binary _ ho hl hr => .binary ho hl.genuine hr.genuine
  | _, .assign _ ht hv => .assign ht.genuine hv.genuine
  | _, .assignOp _ ho ht hv => .assignOp ho ht.genuine hv.genuine
  | _, .unary _ ho => .unary ho.genuine
  | _, .ref _ ho => .ref ho.genuine
  | _, .doubleRef _ ho => .ref (.ref ho.genuine)
  | _, .cast _ _ ho => .cast ho.genuine
  | _, .paren _ hi => .paren hi.genuine
  | _, .tuple _ he => .tuple fun e h => (he e h).genuine
  | _, .array _ he hl => .array (fun e h => (he e h).genuine) fun e h => (hl e h).genuine
  | _, .block _ hb => .block hb.genuine
  | _, .closure _ hq hb => .closure (fun p h => (hq p h).genuine) hb.genuine
  | _, .ifElse _ hc hb ho hs => .ifElse hc.genuine hb.genuine (fun e h => (ho e h).genuine) hs
  | _, .letCond _ hq hv => .letCond hq.genuine hv.genuine
  | _, .whileLoop _ hc hb => .whileLoop hc.genuine hb.genuine
  | _, .loop _ hb => .loop hb.genuine
  | _, .forLoop _ hq hi hb => .forLoop hq.genuine hi.genuine hb.genuine
  | _, .breakOut _ hv => .breakOut fun e h => (hv e h).genuine
  | _, .continueOn _ => .continueOn
  | _, .returnWith _ hv => .returnWith fun e h => (hv e h).genuine
  | _, .macroCall _ hs ha => .macroCall hs fun e h => (ha e h).genuine
  | _, .range _ hf hl => .range (fun e h => (hf e h).genuine) fun e h => (hl e h).genuine
  | _, .matchOn _ hs ha => .matchOn hs.genuine fun a h => (ha a h).genuine
  | _, .structLit _ hs hf => .structLit hs fun f h => (hf f h).genuine
  | _, .tryOp _ ho => .tryOp ho.genuine

theorem PlacedArm.genuine : {a : Arm} → PlacedArm tokens a → GenuineArm tokens a
  | _, .mk hq hg hb => .mk hq.genuine (fun e h => (hg e h).genuine) hb.genuine

theorem PlacedField.genuine : {f : FieldInit} → PlacedField tokens f → GenuineField tokens f
  | _, .value hn hv => .value hn hv.genuine
  | _, .base ho hv => .base ho hv.genuine
  | _, .index _ ht hk => .index ht hk

theorem PlacedBlock.genuine : {b : Block} → PlacedBlock tokens b → GenuineBlock tokens b
  | _, .mk _ hs _ => .mk fun s h => (hs s h).genuine

theorem PlacedStmt.genuine : {s : Stmt} → PlacedStmt tokens s → GenuineStmt tokens s
  | _, .binding _ _ hq hi ho =>
    .binding hq.genuine (fun e h => (hi e h).genuine) fun b h => (ho b h).genuine
  | _, .item hi => .item hi.genuine
  | _, .expr he => .expr he.genuine

theorem PlacedItem.genuine : {i : Item} → PlacedItem tokens i → GenuineItem tokens i
  | _, .fn _ hn hq _ hb => .fn hn (fun p h => (hq p h).genuine) fun b h => (hb b h).genuine
  | _, .foreign _ hi => .foreign hi
  | _, .inlineModule _ hn hi => .inlineModule hn fun i h => (hi i h).genuine
  | _, .fileModule _ hn => .fileModule hn
  | _, .use .. | _, .externCrate .. => .use
  | _, .const _ _ hn hv => .const hn fun e h => (hv e h).genuine
  | _, .impl _ _ _ hi => .impl fun i h => (hi i h).genuine
  | _, .typeDef _ hn => .typeDef hn

end

end RustLua.Parser
