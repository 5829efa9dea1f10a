import RustLua.Parser.Type

/-! # Trees of genuine names

A tree is genuine for a list of tokens if every name, literal and operator in it is one
of them: nothing in it was made up to go on behind an error. -/
namespace RustLua.Parser

open RustLua.Tree

variable (tokens : List Token)

theorem ne_eof_of_startsSegment {k : Token.Kind} (h : startsSegment k = true) : k ≠ .eof := by
  rintro rfl
  cases h

/-- The literal of a token that can be a segment of a path. -/
def IsSegment (text : Bytes) : Prop :=
  ∃ t ∈ tokens, startsSegment t.kind = true ∧ t.literal = text

/-- The segments of a path, of which there is at least one. -/
structure Segments (path : List Bytes) : Prop where
  nonempty : path ≠ []
  each : ∀ s ∈ path, IsSegment tokens s

/-- The literal of a token that can be declared. -/
def IsName (text : Bytes) : Prop :=
  ∃ t ∈ tokens, (t.kind = .ident ∨ t.kind = .kwSelf) ∧ t.literal = text

/-- The literal of a token that can name a field. -/
def IsFieldName (text : Bytes) : Prop :=
  ∃ t ∈ tokens, (t.kind = .ident ∨ t.kind = .intLit) ∧ t.literal = text

/-- A field behind a dot; two fields that are numbers may be one token. -/
def IsMember (text : Bytes) : Prop :=
  IsFieldName tokens text ∨
    ∃ t ∈ tokens, t.kind = .floatLit ∧ text ∈ Bytes.splitOnByte Ascii.dot t.literal

/-- The kind of literal that a token is. -/
def literalKind? : Token.Kind → Option LiteralKind
  | .intLit => some .int
  | .floatLit => some .float
  | .stringLit => some .string
  | .charLit => some .char
  | .byteStringLit => some .bytes
  | .kwTrue | .kwFalse => some .bool
  | _ => none

/-- A literal that stands in the source. -/
def IsLiteral (kind : LiteralKind) (value : Bytes) : Prop :=
  ∃ t ∈ tokens, literalKind? t.kind = some kind ∧ t.literal = value

/-- A kind that occurs. -/
def Occurs (k : Token.Kind) : Prop := ∃ t ∈ tokens, t.kind = k

variable {tokens} in
theorem IsName.isSegment {text : Bytes} (h : IsName tokens text) : IsSegment tokens text := by
  obtain ⟨t, ht, hk, rfl⟩ := h
  refine ⟨t, ht, ?_, rfl⟩
  rcases hk with hk | hk <;> rw [hk] <;> rfl

inductive GenuinePattern : Pattern → Prop
  | ident {name : Bytes} {isMut byRef : Bool} {pos : Pos} (hn : IsName tokens name) :
      GenuinePattern (.ident name isMut byRef pos)
  | wild {pos : Pos} (ho : Occurs tokens .underscore ∨ Occurs tokens .dotDot) :
      GenuinePattern (.wild pos)
  | tuple {elems : List Pattern} {pos : Pos} (he : ∀ p ∈ elems, GenuinePattern p) :
      GenuinePattern (.tuple elems pos)
  | lit {l : Literal} (hl : IsLiteral tokens l.kind l.value) : GenuinePattern (.lit l)
  | negative {kind : LiteralKind} {value : Bytes} {pos : Pos} (hl : IsLiteral tokens kind value)
      (ho : Occurs tokens .minus) : GenuinePattern (.lit ⟨kind, Ascii.minus :: value, pos⟩)
  | path {segments : List Bytes} {pos : Pos} (hs : Segments tokens segments) :
      GenuinePattern (.path segments pos)
  | applied {segments : List Bytes} {elems : List Pattern} {pos : Pos}
      (hs : Segments tokens segments) (he : ∀ p ∈ elems, GenuinePattern p) :
      GenuinePattern (.applied segments elems pos)
  | either {first : Pattern} {others : List Pattern} (hf : GenuinePattern first)
      (ho : ∀ p ∈ others, GenuinePattern p) : GenuinePattern (.either first others)
  | ref {inner : Pattern} {pos : Pos} (hi : GenuinePattern inner) :
      GenuinePattern (.ref inner pos)

/-- A parameter binds by a genuine pattern, or it is a receiver. -/
inductive GenuineParam : Param → Prop
  | receiver {type : Option TypeText} {pos : Pos} (ho : Occurs tokens .kwSelf) :
      GenuineParam ⟨.ident "self" false false pos, type, true, pos⟩
  | plain {pattern : Pattern} {type : Option TypeText} {pos : Pos}
      (hp : GenuinePattern tokens pattern) : GenuineParam ⟨pattern, type, false, pos⟩

/-- What may stand behind `else`. -/
def isElseBranch : Expr → Bool
  | .block .. | .ifElse .. => true
  | _ => false

mutual

inductive GenuineExpr : Expr → Prop
  | lit {l : Literal} (hl : IsLiteral tokens l.kind l.value) : GenuineExpr (.lit l)
  | path {segments : List Bytes} {pos : Pos} (hs : Segments tokens segments) :
      GenuineExpr (.path segments pos)
  | call {func : Expr} {args : List Expr} {pos : Pos} (hf : GenuineExpr func)
      (ha : ∀ e ∈ args, GenuineExpr e) : GenuineExpr (.call func args pos)
  | methodCall {receiver : Expr} {method : Bytes} {args : List Expr} {pos : Pos}
      (hr : GenuineExpr receiver) (hn : IsName tokens method) (ha : ∀ e ∈ args, GenuineExpr e) :
      GenuineExpr (.methodCall receiver method args pos)
  | field {base : Expr} {name : Bytes} {pos : Pos} (hb : GenuineExpr base)
      (hn : IsMember tokens name) : GenuineExpr (.field base name pos)
  | index {base offset : Expr} {pos : Pos} (hb : GenuineExpr base) (ho : GenuineExpr offset) :
      GenuineExpr (.index base offset pos)
  | binary {op : BinaryOp} {left right : Expr} {pos : Pos} (ho : Occurs tokens op.kind)
      (hl : GenuineExpr left) (hr : GenuineExpr right) : GenuineExpr (.binary op left right pos)
  | assign {target value : Expr} {pos : Pos} (ht : GenuineExpr target)
      (hv : GenuineExpr value) : GenuineExpr (.assign target value pos)
  | assignOp {op : AssignOp} {target value : Expr} {pos : Pos} (ho : Occurs tokens op.kind)
      (ht : GenuineExpr target) (hv : GenuineExpr value) :
      GenuineExpr (.assignOp op target value pos)
  | unary {op : UnaryOp} {operand : Expr} {pos : Pos} (ho : GenuineExpr operand) :
      GenuineExpr (.unary op operand pos)
  | ref {isMut : Bool} {operand : Expr} {pos : Pos} (ho : GenuineExpr operand) :
      GenuineExpr (.ref isMut operand pos)
  | cast {operand : Expr} {type : TypeText} {pos : Pos} (ho : GenuineExpr operand) :
      GenuineExpr (.cast operand type pos)
  | paren {inner : Expr} {pos : Pos} (hi : GenuineExpr inner) : GenuineExpr (.paren inner pos)
  | tuple {elements : List Expr} {pos : Pos} (he : ∀ e ∈ elements, GenuineExpr e) :
      GenuineExpr (.tuple elements pos)
  | array {elements : List Expr} {length : Option Expr} {pos : Pos}
      (he : ∀ e ∈ elements, GenuineExpr e) (hl : ∀ e ∈ length, GenuineExpr e) :
      GenuineExpr (.array elements length pos)
  | block {body : Block} {isUnsafe : Bool} {label : Bytes} {pos : Pos} (hb : GenuineBlock body) :
      GenuineExpr (.block body isUnsafe label pos)
  | closure {params : List Param} {body : Expr} {isMove : Bool} {pos : Pos}
      (hp : ∀ p ∈ params, GenuineParam tokens p) (hb : GenuineExpr body) :
      GenuineExpr (.closure params body isMove pos)
  | ifElse {cond : Expr} {body : Block} {otherwise : Option Expr} {pos : Pos}
      (hc : GenuineExpr cond) (hb : GenuineBlock body) (ho : ∀ e ∈ otherwise, GenuineExpr e)
      (hs : ∀ e ∈ otherwise, isElseBranch e = true) :
      GenuineExpr (.ifElse cond body otherwise pos)
  | letCond {pattern : Pattern} {value : Expr} {pos : Pos} (hp : GenuinePattern tokens pattern)
      (hv : GenuineExpr value) : GenuineExpr (.letCond pattern value pos)
  | whileLoop {cond : Expr} {body : Block} {label : Bytes} {pos : Pos} (hc : GenuineExpr cond)
      (hb : GenuineBlock body) : GenuineExpr (.whileLoop cond body label pos)
  | loop {body : Block} {label : Bytes} {pos : Pos} (hb : GenuineBlock body) :
      GenuineExpr (.loop body label pos)
  | forLoop {pattern : Pattern} {iterated : Expr} {body : Block} {label : Bytes} {pos : Pos}
      (hp : GenuinePattern tokens pattern) (hi : GenuineExpr iterated) (hb : GenuineBlock body) :
      GenuineExpr (.forLoop pattern iterated body label pos)
  | breakOut {label : Bytes} {value : Option Expr} {pos : Pos}
      (hv : ∀ e ∈ value, GenuineExpr e) : GenuineExpr (.breakOut label value pos)
  | continueOn {label : Bytes} {pos : Pos} : GenuineExpr (.continueOn label pos)
  | returnWith {value : Option Expr} {pos : Pos} (hv : ∀ e ∈ value, GenuineExpr e) :
      GenuineExpr (.returnWith value pos)
  | macroCall {path : List Bytes} {args : List Expr} {isOpaque : Bool} {pos : Pos}
      (hs : Segments tokens path) (ha : ∀ e ∈ args, GenuineExpr e) :
      GenuineExpr (.macroCall path args isOpaque pos)
  | range {first last : Option Expr} {inclusive : Bool} {pos : Pos}
      (hf : ∀ e ∈ first, GenuineExpr e) (hl : ∀ e ∈ last, GenuineExpr e) :
      GenuineExpr (.range first last inclusive pos)
  | matchOn {scrutinee : Expr} {arms : List Arm} {pos : Pos} (hs : GenuineExpr scrutinee)
      (ha : ∀ a ∈ arms, GenuineArm a) : GenuineExpr (.matchOn scrutinee arms pos)
  | structLit {path : List Bytes} {fields : List FieldInit} {pos : Pos}
      (hs : Segments tokens path) (hf : ∀ f ∈ fields, GenuineField f) :
      GenuineExpr (.structLit path fields pos)
  | tryOp {operand : Expr} {pos : Pos} (ho : GenuineExpr operand) :
      GenuineExpr (.tryOp operand pos)

inductive GenuineArm : Arm → Prop
  | mk {pattern : Pattern} {guard : Option Expr} {body : Expr}
      (hp : GenuinePattern tokens pattern) (hg : ∀ e ∈ guard, GenuineExpr e)
      (hb : GenuineExpr body) : GenuineArm (.mk pattern guard body)

/-- A field without a value of its own stands for the variable of its name, even where that
is a number and no variable can have it. -/
inductive GenuineField : FieldInit → Prop
  | value {name : Bytes} {value : Expr} (hn : IsFieldName tokens name) (hv : GenuineExpr value) :
      GenuineField (.mk name value)
  | base {value : Expr} (ho : Occurs tokens .dotDot) (hv : GenuineExpr value) :
      GenuineField (.mk ".." value)
  | index {t : Token} {pos : Pos} (ht : t ∈ tokens) (hk : t.kind = .intLit) :
      GenuineField (.mk t.literal (.path [t.literal] pos))

inductive GenuineBlock : Block → Prop
  | mk {stmts : List Stmt} {pos : Pos} (hs : ∀ s ∈ stmts, GenuineStmt s) :
      GenuineBlock (.mk stmts pos)

inductive GenuineStmt : Stmt → Prop
  | binding {pattern : Pattern} {type : Option TypeText} {init : Option Expr}
      {otherwise : Option Block} {pos : Pos} (hp : GenuinePattern tokens pattern)
      (hi : ∀ e ∈ init, GenuineExpr e) (ho : ∀ b ∈ otherwise, GenuineBlock b) :
      GenuineStmt (.binding pattern type init otherwise pos)
  | item {i : Item} (hi : GenuineItem i) : GenuineStmt (.item i)
  | expr {e : Expr} {semi : Bool} (he : GenuineExpr e) : GenuineStmt (.expr e semi)

inductive GenuineItem : Item → Prop
  | fn {name : Bytes} {params : List Param} {returns : Option TypeText} {body : Option Block}
      {abi : Bytes} {isPublic : Bool} {pos : Pos} (hn : IsName tokens name)
      (hp : ∀ p ∈ params, GenuineParam tokens p) (hb : ∀ b ∈ body, GenuineBlock b) :
      GenuineItem (.fn name params returns body abi isPublic pos)
  | foreign {abi : Bytes} {items : List ForeignItem} {pos : Pos}
      (hi : ∀ i ∈ items, IsName tokens i.name) : GenuineItem (.foreign abi items pos)
  | inlineModule {name : Bytes} {items : List Item} {pos : Pos} (hn : IsName tokens name)
      (hi : ∀ i ∈ items, GenuineItem i) : GenuineItem (.inlineModule name items pos)
  | fileModule {name : Bytes} {pos : Pos} (hn : IsName tokens name) :
      GenuineItem (.fileModule name pos)
  | use {path : Bytes} {pos : Pos} : GenuineItem (.use path pos)
  | const {name : Bytes} {isStatic : Bool} {type : Option TypeText} {value : Option Expr}
      {pos : Pos} (hn : IsName tokens name ∨ name = "_" ∧ Occurs tokens .underscore)
      (hv : ∀ e ∈ value, GenuineExpr e) : GenuineItem (.const name isStatic type value pos)
  | impl {type trait : Bytes} {items : List Item} {pos : Pos} (hi : ∀ i ∈ items, GenuineItem i) :
      GenuineItem (.impl type trait items pos)
  | typeDef {keyword name : Bytes} {pos : Pos} (hn : IsName tokens name) :
      GenuineItem (.typeDef keyword name pos)

end

end RustLua.Parser
