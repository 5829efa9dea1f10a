import RustLua.Parser.Skip
import RustLua.Tree.Basic

/-!
The grammar's recursive entry points, as a record. Every production is written
over such a record and calls it wherever the grammar turns back on itself; the
knot is tied once, with a bound on the depth.
-/

namespace RustLua.Parser

open RustLua.Tree

structure Grammar where
  expression : Parser Expr
  /-- An expression of operators that bind at least this tightly. -/
  precedence : Nat → Parser Expr
  unary : Parser Expr
  primary : Parser Expr
  ifElse : Parser Expr
  block : Parser Block
  item : Parser (Option Item)
  pattern : Parser Pattern
  skipType : Parser Unit

/-- The grammar that answers nothing. -/
def Grammar.exhausted : Grammar where
  expression := failure
  precedence _ := failure
  unary := failure
  primary := failure
  ifElse := failure
  block := failure
  item := failure
  pattern := failure
  skipType := failure

end RustLua.Parser
