import RustLua.Bytes.Basic

/-!
Operators of the intermediate form. Each has a number; a number without an
operator is kept as it is. The compound forms of assignments have numbers too,
though no well-formed unit holds them.
-/

namespace RustLua.Ir

inductive BinaryOp where
  | add | sub | mul | div | mod | and | or | bxor | band | bor | bshl | bshr
  | eq | lt | le | ne | ge | gt
  | addEq | subEq | mulEq | divEq | modEq | bxorEq | bandEq | borEq | bshlEq | bshrEq
  | unknown (number : Int)
deriving DecidableEq, Repr

namespace BinaryOp

/-- The known operators in the order of their numbers. -/
def all : List BinaryOp :=
  [.add, .sub, .mul, .div, .mod, .and, .or, .bxor, .band, .bor, .bshl, .bshr,
   .eq, .lt, .le, .ne, .ge, .gt,
   .addEq, .subEq, .mulEq, .divEq, .modEq, .bxorEq, .bandEq, .borEq, .bshlEq, .bshrEq]

def ofNumber (n : Int) : BinaryOp :=
  if n < 0 then .unknown n else (all[n.toNat]?).getD (.unknown n)

def number : BinaryOp → Int
  | .unknown n => n
  | op => all.idxOf op

def name : BinaryOp → Bytes
  | .add => "Add"
  | .sub => "Sub"
  | .mul => "Mul"
  | .div => "Div"
  | .mod => "Mod"
  | .and => "And"
  | .or => "Or"
  | .bxor => "Bxor"
  | .band => "Band"
  | .bor => "Bor"
  | .bshl => "Bshl"
  | .bshr => "Bshr"
  | .eq => "Eq"
  | .lt => "Lt"
  | .le => "Le"
  | .ne => "Ne"
  | .ge => "Ge"
  | .gt => "Gt"
  | .addEq => "AddEq"
  | .subEq => "SubEq"
  | .mulEq => "MulEq"
  | .divEq => "DivEq"
  | .modEq => "ModEq"
  | .bxorEq => "BxorEq"
  | .bandEq => "BandEq"
  | .borEq => "BorEq"
  | .bshlEq => "BshlEq"
  | .bshrEq => "BshrEq"
  | .unknown n => "BinaryOp(" ++ Bytes.integer n ++ ")"

/-- The operator without the assignment; every other operator is its own base. -/
def base : BinaryOp → BinaryOp
  | .addEq => .add
  | .subEq => .sub
  | .mulEq => .mul
  | .divEq => .div
  | .modEq => .mod
  | .bxorEq => .bxor
  | .bandEq => .band
  | .borEq => .bor
  | .bshlEq => .bshl
  | .bshrEq => .bshr
  | op => op

def isCompound : BinaryOp → Bool
  | .addEq | .subEq | .mulEq | .divEq | .modEq | .bxorEq | .bandEq | .borEq | .bshlEq
  | .bshrEq => true
  | _ => false

def isKnown : BinaryOp → Bool
  | .unknown _ => false
  | _ => true

end BinaryOp
end RustLua.Ir
