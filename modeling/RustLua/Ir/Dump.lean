import RustLua.Decimal.Text
import RustLua.Ir.Basic
import RustLua.Yaml.Writer

/-!
The intermediate form as a tree for inspection. A node is a mapping with one
key, the name of its variant; what leaves a loop is a bare word, and a missing
node is null.
-/

namespace RustLua.Ir

open Yaml (Node Entry)

/-- A variant with its fields in order. -/
def variant (name : String) (fields : List (String × Node)) : Node :=
  Node.single name (.map (fields.map fun (key, value) => .mk key value))

def namesNode (names : List Bytes) : Node := .seq true (names.map Node.string)

def numbersNode (numbers : List Int) : Node :=
  .seq true (numbers.map fun n => Node.plain .int (Bytes.integer n))

def decimalNode (d : Double) : Node :=
  Node.plain .float <|
    if d.isNaN then ".nan"
    else if d.isInfinite then if d.isNegative then "-.inf" else ".inf"
    else d.text

/-- A field that is there only for a present node. -/
def optionalField (key : String) (item : Item) (node : Node) : List (String × Node) :=
  match item with
  | .missing => []
  | _ => [(key, node)]

mutual

def Item.node : Item → Node
  | .missing => .null
  | .function name params body => variant "FunctionDefinition"
      [("name", .string name), ("params", namesNode params), ("body", .seq false (nodes body))]
  | .varDecl name value => variant "VarDecl" [("name", .string name), ("expr", value.node)]
  | .varSet name value => variant "VarSet" [("name", .string name), ("expr", value.node)]
  | .externs names => variant "Externs" [("names", namesNode names)]
  | .mod name items => variant "Mod" [("name", .string name), ("items", .seq false (nodes items))]
  | .breakLoop => .plain .str "Break"
  | .continueLoop => .plain .str "Continue"
  | .returnValue value => variant "Return" [("expr", value.node)]
  | .ifElif cond body elifs otherwise => variant "IfElif"
      ([("cond", cond.node), ("body", .seq false (nodes body)),
        ("elifs", .seq false (branchNodes elifs))] ++ elseFields otherwise)
  | .whileLoop cond body => variant "While"
      [("cond", cond.node), ("body", .seq false (nodes body))]
  | .forRange var min max step body => variant "ForRange"
      ([("var", .string var), ("min", min.node), ("max", max.node)] ++
        optionalField "step" step step.node ++ [("body", .seq false (nodes body))])
  | .forIn var iterated body => variant "ForIn"
      [("var", .string var), ("expr", iterated.node), ("body", .seq false (nodes body))]
  | .call func args => variant "ExprCall" [("func", func.node), ("args", .seq false (nodes args))]
  | .ident name => .single "ExprIdent" (.string name)
  | .bool value => .single "ExprBool" (.plain .bool (if value then "true" else "false"))
  | .integer value => .single "ExprInteger" (.plain .int (Bytes.integer value.toInt))
  | .decimal value => .single "ExprDecimal" (decimalNode value)
  | .string value => .single "ExprString" (.scalar ⟨.str, true, value⟩)
  | .closure params body => variant "ExprClosure"
      [("params", namesNode params), ("body", .seq false (nodes body))]
  | .array elements => variant "ExprArray" [("elements", .seq false (nodes elements))]
  | .binary op lhs rhs => variant "ExprBinary"
      [("op", .string op.name), ("lhs", lhs.node), ("rhs", rhs.node)]
  | .format fragments slots values => variant "ExprFString"
      [("strings", namesNode fragments), ("slots", numbersNode slots),
        ("values", .seq false (nodes values))]

def nodes : List Item → List Node
  | [] => []
  | item :: items => item.node :: nodes items

def branchNodes : List Branch → List Node
  | [] => []
  | .mk cond body :: elifs =>
    .map [.mk "cond" cond.node, .mk "body" (.seq false (nodes body))] :: branchNodes elifs

def elseFields : Option (List Item) → List (String × Node)
  | none => []
  | some body => [("else", .seq false (nodes body))]

end

def Program.node (program : Program) : Node := .seq false (nodes program.items)

/-- Why a program cannot be shown. -/
inductive DumpError where
  | noProgram
  | invalidText
deriving DecidableEq, Repr

def DumpError.message : DumpError → Bytes
  | .noProgram => "dump: nil unit"
  | .invalidText => "dump: yaml: cannot marshal invalid UTF-8 data as !!str"

def dump : Option Program → Except DumpError Bytes
  | none => .error .noProgram
  | some program =>
    match program.node.write? with
    | some text => .ok text
    | none => .error .invalidText

end RustLua.Ir
