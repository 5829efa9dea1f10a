import RustLua.Position
import RustLua.Tree.Operator

/-!
The syntax tree. Types and paths that the program never looks inside are kept
as text. Every node knows where it starts.
-/

namespace RustLua.Tree

/-- A type, as text. -/
structure TypeText where
  text : Bytes
  pos : Pos
deriving DecidableEq, Repr

inductive LiteralKind where
  | int | float | string | char | bool | bytes
deriving DecidableEq, Repr

def LiteralKind.name : LiteralKind → String
  | .int => "int"
  | .float => "float"
  | .string => "string"
  | .char => "char"
  | .bool => "bool"
  | .bytes => "bytes"

structure Literal where
  kind : LiteralKind
  value : Bytes
  pos : Pos
deriving DecidableEq, Repr

/-- Patterns. `applied` is a path with a list in parentheses or with a body in
braces, whose fields are not kept; alternatives are never empty. -/
inductive Pattern where
  | ident (name : Bytes) (isMut byRef : Bool) (pos : Pos)
  | wild (pos : Pos)
  | tuple (elems : List Pattern) (pos : Pos)
  | lit (literal : Literal)
  | path (segments : List Bytes) (pos : Pos)
  | applied (segments : List Bytes) (elems : List Pattern) (pos : Pos)
  | either (first : Pattern) (others : List Pattern)
  | ref (inner : Pattern) (pos : Pos)

def Pattern.pos : Pattern → Pos
  | .ident _ _ _ p | .wild p | .tuple _ p | .path _ p | .applied _ _ p | .ref _ p => p
  | .lit l => l.pos
  | .either first _ => first.pos

structure Param where
  pattern : Pattern
  type : Option TypeText
  isReceiver : Bool
  pos : Pos

/-- A name that an extern block declares. -/
structure ForeignItem where
  name : Bytes
  isStatic : Bool
  pos : Pos
deriving DecidableEq, Repr

mutual

inductive Expr where
  | lit (literal : Literal)
  | path (segments : List Bytes) (pos : Pos)
  | call (func : Expr) (args : List Expr) (pos : Pos)
  | methodCall (receiver : Expr) (method : Bytes) (args : List Expr) (pos : Pos)
  | field (base : Expr) (name : Bytes) (pos : Pos)
  | index (base offset : Expr) (pos : Pos)
  | binary (op : BinaryOp) (left right : Expr) (pos : Pos)
  | assign (target value : Expr) (pos : Pos)
  | assignOp (op : AssignOp) (target value : Expr) (pos : Pos)
  | unary (op : UnaryOp) (operand : Expr) (pos : Pos)
  | ref (isMut : Bool) (operand : Expr) (pos : Pos)
  | cast (operand : Expr) (type : TypeText) (pos : Pos)
  | paren (inner : Expr) (pos : Pos)
  | tuple (elements : List Expr) (pos : Pos)
  | array (elements : List Expr) (length : Option Expr) (pos : Pos)
  | block (body : Block) (isUnsafe : Bool) (label : Bytes) (pos : Pos)
  | closure (params : List Param) (body : Expr) (isMove : Bool) (pos : Pos)
  | ifElse (cond : Expr) (body : Block) (otherwise : Option Expr) (pos : Pos)
  | letCond (pattern : Pattern) (value : Expr) (pos : Pos)
  | whileLoop (cond : Expr) (body : Block) (label : Bytes) (pos : Pos)
  | loop (body : Block) (label : Bytes) (pos : Pos)
  | forLoop (pattern : Pattern) (iterated : Expr) (body : Block) (label : Bytes) (pos : Pos)
  | breakOut (label : Bytes) (value : Option Expr) (pos : Pos)
  | continueOn (label : Bytes) (pos : Pos)
  | returnWith (value : Option Expr) (pos : Pos)
  | macroCall (path : List Bytes) (args : List Expr) (isOpaque : Bool) (pos : Pos)
  | range (first last : Option Expr) (inclusive : Bool) (pos : Pos)
  | matchOn (scrutinee : Expr) (arms : List Arm) (pos : Pos)
  | structLit (path : List Bytes) (fields : List FieldInit) (pos : Pos)
  | tryOp (operand : Expr) (pos : Pos)

inductive Arm where
  | mk (pattern : Pattern) (guard : Option Expr) (body : Expr)

inductive FieldInit where
  | mk (name : Bytes) (value : Expr)

/-- Statements in braces, at the position of the opening brace. -/
inductive Block where
  | mk (stmts : List Stmt) (pos : Pos)

/-- An expression statement knows whether a semicolon follows; one without it
at the end of a block is the block's tail. -/
inductive Stmt where
  | binding (pattern : Pattern) (type : Option TypeText) (init : Option Expr)
      (otherwise : Option Block) (pos : Pos)
  | item (i : Item)
  | expr (e : Expr) (semi : Bool)

/-- A function without a body is an extern declaration. A module without items
lives in another file. -/
inductive Item where
  | fn (name : Bytes) (params : List Param) (returns : Option TypeText) (body : Option Block)
      (abi : Bytes) (isPublic : Bool) (pos : Pos)
  | foreign (abi : Bytes) (items : List ForeignItem) (pos : Pos)
  | inlineModule (name : Bytes) (items : List Item) (pos : Pos)
  | fileModule (name : Bytes) (pos : Pos)
  | use (path : Bytes) (pos : Pos)
  | const (name : Bytes) (isStatic : Bool) (type : Option TypeText) (value : Option Expr)
      (pos : Pos)
  | impl (type trait : Bytes) (items : List Item) (pos : Pos)
  | typeDef (keyword name : Bytes) (pos : Pos)

end

structure File where
  items : List Item

def Expr.pos : Expr → Pos
  | .lit l => l.pos
  | .path _ p | .call _ _ p | .methodCall _ _ _ p | .field _ _ p | .index _ _ p
  | .binary _ _ _ p | .assign _ _ p | .assignOp _ _ _ p | .unary _ _ p | .ref _ _ p
  | .cast _ _ p | .paren _ p | .tuple _ p | .array _ _ p | .block _ _ _ p | .closure _ _ _ p
  | .ifElse _ _ _ p | .letCond _ _ p | .whileLoop _ _ _ p | .loop _ _ p | .forLoop _ _ _ _ p
  | .breakOut _ _ p | .continueOn _ p | .returnWith _ p | .macroCall _ _ _ p | .range _ _ _ p
  | .matchOn _ _ p | .structLit _ _ p | .tryOp _ p => p

def Item.pos : Item → Pos
  | .fn _ _ _ _ _ _ p | .foreign _ _ p | .inlineModule _ _ p | .fileModule _ p | .use _ p
  | .const _ _ _ _ p | .impl _ _ _ p | .typeDef _ _ p => p

def Stmt.pos : Stmt → Pos
  | .binding _ _ _ _ p => p
  | .item i => i.pos
  | .expr e _ => e.pos

def Block.stmts : Block → List Stmt
  | .mk stmts _ => stmts

def Block.pos : Block → Pos
  | .mk _ pos => pos

/-- The expression that a block ends in without a semicolon. -/
def Block.tail? (b : Block) : Option Expr :=
  match b.stmts.getLast? with
  | some (.expr e false) => some e
  | _ => none

/-- A file starts at its first item. -/
def File.pos (f : File) : Pos := (f.items.head?.map Item.pos).getD Pos.start

/-- Does a function with this declared type return a value? The unit type does not. -/
def returnsValue (returns : Option TypeText) : Bool :=
  match returns with
  | some t => t.text != Bytes.ofString "()"
  | none => false

/-- The last segment of a path. -/
def lastSegment (path : List Bytes) : Bytes := path.getLastD []

end RustLua.Tree
