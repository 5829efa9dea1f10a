import RustLua.Ir.Operator

/-! Gaps: what the intermediate form can hold and Lua text cannot. -/

namespace RustLua.Lua

inductive Gap where
  | noProgram
  | noStatement
  | noExpression
  | usedAsValue (what : String)
  | breakOutside
  | continueOutside
  | emptyIdentifier
  | compoundOperator (op : Ir.BinaryOp)
  | unknownOperator (op : Ir.BinaryOp)
  | fragmentCount (fragments slots : Nat)
  | valueCount (values slots : Nat)
  | slotWithoutValue (slot : Int) (values : Nat)
deriving DecidableEq, Repr

def Gap.text : Gap → Bytes
  | .noProgram => "nil unit"
  | .noStatement => "nil statement"
  | .noExpression => "nil expression"
  | .usedAsValue what => what ++ " used as a value"
  | .breakOutside => "break outside a loop"
  | .continueOutside => "continue outside a loop"
  | .emptyIdentifier => "empty identifier"
  | .compoundOperator op => "compound operator " ++ op.name ++ " in a binary expression"
  | .unknownOperator op => "no token for operator " ++ op.name
  | .fragmentCount fragments slots =>
    "format string has " ++ Bytes.decimal fragments ++ " fragments for " ++
      Bytes.decimal slots ++ " slots"
  | .valueCount values slots =>
    "format string has " ++ Bytes.decimal values ++ " values for " ++
      Bytes.decimal slots ++ " slots"
  | .slotWithoutValue slot values =>
    "format slot " ++ Bytes.integer slot ++ " has no value (" ++ Bytes.decimal values ++ " given)"

def Gap.message (g : Gap) : Bytes := "rendering gap: " ++ g.text

end RustLua.Lua
