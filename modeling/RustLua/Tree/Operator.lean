import RustLua.Token.Basic

/-!
Operators of the source language. Binary operators bind in nine levels; a cast
binds tighter than all of them and is no operator here.
-/

namespace RustLua.Tree

inductive UnaryOp where
  | neg | not | deref
deriving DecidableEq, Repr

inductive BinaryOp where
  | add | sub | mul | div | rem | and | or | bitXor | bitAnd | bitOr | shl | shr
  | eq | lt | le | ne | ge | gt
deriving DecidableEq, Repr

/-- The operators that `op=` assignments combine with. -/
inductive AssignOp where
  | add | sub | mul | div | rem | bitXor | bitAnd | bitOr | shl | shr
deriving DecidableEq, Repr

def UnaryOp.kind : UnaryOp → Token.Kind
  | .neg => .minus
  | .not => .bang
  | .deref => .star

def UnaryOp.ofKind? : Token.Kind → Option UnaryOp
  | .minus => some .neg
  | .bang => some .not
  | .star => some .deref
  | _ => none

namespace BinaryOp

def all : List BinaryOp :=
  [.add, .sub, .mul, .div, .rem, .and, .or, .bitXor, .bitAnd, .bitOr, .shl, .shr,
   .eq, .lt, .le, .ne, .ge, .gt]

def kind : BinaryOp → Token.Kind
  | .add => .plus
  | .sub => .minus
  | .mul => .star
  | .div => .slash
  | .rem => .percent
  | .and => .andAnd
  | .or => .orOr
  | .bitXor => .caret
  | .bitAnd => .amp
  | .bitOr => .pipe
  | .shl => .shiftLeft
  | .shr => .shiftRight
  | .eq => .eqEq
  | .lt => .less
  | .le => .lessEq
  | .ne => .notEq
  | .ge => .greaterEq
  | .gt => .greater

def ofKind? (k : Token.Kind) : Option BinaryOp := all.find? (·.kind = k)

/-- How tightly an operator binds; comparisons share one level and group to the left. -/
def level : BinaryOp → Nat
  | .or => 1
  | .and => 2
  | .eq | .ne | .lt | .gt | .le | .ge => comparison
  | .bitOr => 4
  | .bitXor => 5
  | .bitAnd => 6
  | .shl | .shr => 7
  | .add | .sub => 8
  | .mul | .div | .rem => 9
where
  comparison := 3

/-- The loosest level. -/
def lowest : Nat := 1

/-- The level of casts. -/
def castLevel : Nat := 10

end BinaryOp

namespace AssignOp

def all : List AssignOp :=
  [.add, .sub, .mul, .div, .rem, .bitXor, .bitAnd, .bitOr, .shl, .shr]

def kind : AssignOp → Token.Kind
  | .add => .plusEq
  | .sub => .minusEq
  | .mul => .starEq
  | .div => .slashEq
  | .rem => .percentEq
  | .bitXor => .caretEq
  | .bitAnd => .ampEq
  | .bitOr => .pipeEq
  | .shl => .shiftLeftEq
  | .shr => .shiftRightEq

def ofKind? (k : Token.Kind) : Option AssignOp := all.find? (·.kind = k)

/-- The operator without the assignment. -/
def base : AssignOp → BinaryOp
  | .add => .add
  | .sub => .sub
  | .mul => .mul
  | .div => .div
  | .rem => .rem
  | .bitXor => .bitXor
  | .bitAnd => .bitAnd
  | .bitOr => .bitOr
  | .shl => .shl
  | .shr => .shr

end AssignOp
end RustLua.Tree
