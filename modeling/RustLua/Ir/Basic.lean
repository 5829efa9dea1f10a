import RustLua.Decimal.Double
import RustLua.Ir.Operator

/-!
The intermediate form: one type of nodes for statements and values. Where a
node may be left out, or where a broken unit lacks one, stands `missing`.
-/

namespace RustLua.Ir

mutual

/-- Nodes. A bare return has a missing value, a loop without a step a missing
step, and a chain without an else branch no list for it. A format's slots are
numbers of values, counted from 1. -/
inductive Item where
  | missing
  | function (name : Bytes) (params : List Bytes) (body : List Item)
  | varDecl (name : Bytes) (value : Item)
  | varSet (name : Bytes) (value : Item)
  | externs (names : List Bytes)
  | mod (name : Bytes) (items : List Item)
  | breakLoop
  | continueLoop
  | returnValue (value : Item)
  | ifElif (cond : Item) (body : List Item) (elifs : List Branch)
      (otherwise : Option (List Item))
  | whileLoop (cond : Item) (body : List Item)
  | forRange (var : Bytes) (min max step : Item) (body : List Item)
  | forIn (var : Bytes) (iterated : Item) (body : List Item)
  | call (func : Item) (args : List Item)
  | ident (name : Bytes)
  | bool (value : Bool)
  | integer (value : Int64)
  | decimal (value : Double)
  | string (value : Bytes)
  | closure (params : List Bytes) (body : List Item)
  | array (elements : List Item)
  | binary (op : BinaryOp) (lhs rhs : Item)
  | format (fragments : List Bytes) (slots : List Int) (values : List Item)

inductive Branch where
  | mk (cond : Item) (body : List Item)

end

instance : Inhabited Item := ⟨.missing⟩

/-- The nodes of one source. -/
structure Program where
  items : List Item

end RustLua.Ir
