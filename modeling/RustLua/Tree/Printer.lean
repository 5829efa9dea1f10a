import RustLua.Bytes.Quoted
import RustLua.Tree.Basic

/-!
The tree as indented text, one node a line, two blanks a level. A labelled
child stands two levels below its node, under the label.
-/

namespace RustLua.Tree

/-- A path with its separators. -/
def pathText (segments : List Bytes) : Bytes := Bytes.join "::" segments

mutual

def Pattern.text : Pattern → Bytes
  | .ident name isMut byRef _ =>
    (if byRef then "ref " else "") ++ (if isMut then "mut " else "") ++ name
  | .wild _ => "_"
  | .tuple elems _ => "(" ++ Bytes.join ", " (patternTexts elems) ++ ")"
  | .lit l => l.value
  | .path segments _ => pathText segments
  | .applied segments elems _ =>
    pathText segments ++ "(" ++ Bytes.join ", " (patternTexts elems) ++ ")"
  | .either first others => Bytes.join " | " (first.text :: patternTexts others)
  | .ref inner _ => "&" ++ inner.text

def patternTexts : List Pattern → List Bytes
  | [] => []
  | p :: ps => p.text :: patternTexts ps

end

/-- A line at a level. -/
def line (level : Nat) (text : Bytes) : List Bytes :=
  [List.replicate (2 * level) Ascii.blank ++ text]

/-- A labelled child: its label, one level down, and its lines, two levels down. -/
def labelled (level : Nat) (label : Bytes) (lines : List Bytes) : List Bytes :=
  line (level + 1) (label ++ ":") ++ lines

def labelText (label : Bytes) : Bytes :=
  Bytes.onlyIf (!label.isEmpty) (" '" ++ label)

def Param.lines (level : Nat) (p : Param) : List Bytes :=
  let name : Bytes := if p.isReceiver then "self (receiver)" else p.pattern.text
  match p.type with
  | some t => line level (name ++ ": " ++ t.text)
  | none => line level name

def Literal.lines (level : Nat) (l : Literal) : List Bytes :=
  let shown : Bytes := match l.kind with
    | .string | .char | .bytes => Bytes.quoted l.value
    | .int | .float | .bool => l.value
  line level ("Lit(" ++ l.kind.name ++ "): " ++ shown)

/-- What stands in parentheses behind a function's name. -/
def modifierText (isPublic : Bool) (abi : Bytes) : Bytes :=
  let words : Bytes := Bytes.onlyIf isPublic "pub"
  let convention : Bytes := Bytes.onlyIf (!abi.isEmpty) ("extern " ++ Bytes.quoted abi)
  let blank : Bytes := Bytes.onlyIf (isPublic && !abi.isEmpty) " "
  Bytes.onlyIf (isPublic || !abi.isEmpty) (" (" ++ words ++ blank ++ convention ++ ")")

def ForeignItem.lines (level : Nat) (f : ForeignItem) : List Bytes :=
  line level ((if f.isStatic then "static " else "fn ") ++ f.name)

/-- The arguments of a call, whose lines are given. -/
def argLines (level : Nat) (noArgs : Bool) (lines : List Bytes) : List Bytes :=
  if noArgs then line (level + 1) "Args: none" else labelled level "Args" lines

mutual

def Expr.lines (level : Nat) : Expr → List Bytes
  | .lit l => l.lines level
  | .path segments _ => line level ("Path: " ++ pathText segments)
  | .call func args _ =>
    line level "Call" ++ labelled level "Func" (func.lines (level + 2)) ++
      argLines level args.isEmpty (exprLines (level + 2) args)
  | .methodCall receiver method args _ =>
    line level ("MethodCall: " ++ method) ++
      labelled level "Receiver" (receiver.lines (level + 2)) ++
      argLines level args.isEmpty (exprLines (level + 2) args)
  | .field base name _ => line level ("Field: " ++ name) ++ base.lines (level + 1)
  | .index base offset _ =>
    line level "Index" ++ labelled level "Base" (base.lines (level + 2)) ++
      labelled level "Index" (offset.lines (level + 2))
  | .binary op left right _ =>
    line level ("Binary: " ++ op.kind.name) ++
      labelled level "Left" (left.lines (level + 2)) ++
      labelled level "Right" (right.lines (level + 2))
  | .assign target value _ =>
    line level "Assign" ++ labelled level "Target" (target.lines (level + 2)) ++
      labelled level "Value" (value.lines (level + 2))
  | .assignOp op target value _ =>
    line level ("AssignOp: " ++ op.kind.name) ++
      labelled level "Target" (target.lines (level + 2)) ++
      labelled level "Value" (value.lines (level + 2))
  | .unary op operand _ =>
    line level ("Unary: " ++ op.kind.name) ++ operand.lines (level + 1)
  | .ref isMut operand _ =>
    line level (if isMut then "Ref (mut)" else "Ref") ++ operand.lines (level + 1)
  | .cast operand type _ => line level ("Cast: " ++ type.text) ++ operand.lines (level + 1)
  | .paren inner _ => line level "Paren" ++ inner.lines (level + 1)
  | .tuple elements _ => line level "Tuple" ++ exprLines (level + 1) elements
  | .array elements length _ =>
    line level "Array" ++ exprLines (level + 1) elements ++ childLines level "Len" length
  | .block body isUnsafe label _ =>
    line level ((if isUnsafe then "Block (unsafe)" else "Block") ++ labelText label) ++
      body.lines (level + 1)
  | .closure params body _ _ =>
    line level "Closure" ++
      (if params.isEmpty then []
        else labelled level "Params" (params.flatMap (Param.lines (level + 2)))) ++
      labelled level "Body" (body.lines (level + 2))
  | .ifElse cond body otherwise _ =>
    line level "If" ++ labelled level "Cond" (cond.lines (level + 2)) ++
      labelled level "Then" (body.lines (level + 2)) ++ childLines level "Else" otherwise
  | .letCond pattern value _ =>
    line level ("Let: " ++ pattern.text) ++ value.lines (level + 1)
  | .whileLoop cond body label _ =>
    line level ("While" ++ labelText label) ++
      labelled level "Cond" (cond.lines (level + 2)) ++
      labelled level "Body" (body.lines (level + 2))
  | .loop body label _ =>
    line level ("Loop" ++ labelText label) ++ labelled level "Body" (body.lines (level + 2))
  | .forLoop pattern iterated body label _ =>
    line level ("For: " ++ pattern.text ++ labelText label) ++
      labelled level "Iter" (iterated.lines (level + 2)) ++
      labelled level "Body" (body.lines (level + 2))
  | .breakOut label value _ => line level ("Break" ++ labelText label) ++ innerLines level value
  | .continueOn label _ => line level ("Continue" ++ labelText label)
  | .returnWith value _ => line level "Return" ++ innerLines level value
  | .macroCall path args _ _ =>
    line level ("Macro: " ++ pathText path ++ "!") ++
      argLines level args.isEmpty (exprLines (level + 2) args)
  | .range first last inclusive _ =>
    line level (if inclusive then "Range (inclusive)" else "Range") ++
      childLines level "Start" first ++ childLines level "End" last
  | .matchOn scrutinee arms _ =>
    line level "Match" ++ labelled level "Scrutinee" (scrutinee.lines (level + 2)) ++
      armLines level arms
  | .structLit path fields _ =>
    line level ("StructLit: " ++ pathText path) ++ fieldLines level fields
  | .tryOp operand _ => line level "Try" ++ operand.lines (level + 1)

/-- A child without a label, if there is one. -/
def innerLines (level : Nat) : Option Expr → List Bytes
  | none => []
  | some e => e.lines (level + 1)

/-- A labelled child, if there is one. -/
def childLines (level : Nat) (label : Bytes) : Option Expr → List Bytes
  | none => []
  | some e => labelled level label (e.lines (level + 2))

def exprLines (level : Nat) : List Expr → List Bytes
  | [] => []
  | e :: es => e.lines level ++ exprLines level es

def armLines (level : Nat) : List Arm → List Bytes
  | [] => []
  | .mk pattern guard body :: arms =>
    line (level + 1) ("Arm: " ++ pattern.text) ++ innerLines (level + 1) guard ++
      body.lines (level + 2) ++ armLines level arms

def fieldLines (level : Nat) : List FieldInit → List Bytes
  | [] => []
  | .mk name value :: fields =>
    labelled level name (value.lines (level + 2)) ++ fieldLines level fields

def Block.lines (level : Nat) : Block → List Bytes
  | .mk stmts _ => stmtLines level stmts

def blockLines (level : Nat) (label : Bytes) : Option Block → List Bytes
  | none => []
  | some b => labelled level label (b.lines (level + 2))

def stmtLines (level : Nat) : List Stmt → List Bytes
  | [] => []
  | s :: ss => s.lines level ++ stmtLines level ss

def Stmt.lines (level : Nat) : Stmt → List Bytes
  | .binding pattern type init otherwise _ =>
    line level ("Local: " ++ pattern.text) ++
      (match type with
        | some t => line (level + 1) ("Type: " ++ t.text)
        | none => []) ++
      childLines level "Init" init ++ blockLines level "Else" otherwise
  | .item i => i.lines level
  | .expr e semi =>
    line level (if semi then "ExprStmt" else "ExprStmt (tail)") ++ e.lines (level + 1)

def Item.lines (level : Nat) : Item → List Bytes
  | .fn name params returns body abi isPublic _ =>
    line level ("Fn: " ++ name ++ modifierText isPublic abi) ++
      (if params.isEmpty then line (level + 1) "Params: none"
        else labelled level "Params" (params.flatMap (Param.lines (level + 2)))) ++
      (match returns with
        | some t => line (level + 1) ("Returns: " ++ t.text)
        | none => []) ++
      blockLines level "Body" body
  | .foreign abi items _ =>
    line level ("ForeignMod: " ++ Bytes.quoted abi) ++
      items.flatMap (ForeignItem.lines (level + 1))
  | .inlineModule name items _ => line level ("Mod: " ++ name) ++ itemLines (level + 1) items
  | .fileModule name _ => line level ("Mod: " ++ name ++ " (out of line)")
  | .use path _ => line level ("Use: " ++ path)
  | .const name isStatic _ value _ =>
    line level ((if isStatic then "Static: " else "Const: ") ++ name) ++
      childLines level "Value" value
  | .impl type trait items _ =>
    line level ("Impl: " ++ Bytes.onlyIf (!trait.isEmpty) (trait ++ " for ") ++ type) ++
      itemLines (level + 1) items
  | .typeDef keyword name _ => line level ("TypeDef: " ++ keyword ++ " " ++ name)

def itemLines (level : Nat) : List Item → List Bytes
  | [] => []
  | i :: is => i.lines level ++ itemLines level is

end

def Expr.print (e : Expr) : Bytes := (e.lines 0).flatMap (· ++ "\n")

def File.print (f : File) : Bytes :=
  (line 0 "File" ++ itemLines 1 f.items).flatMap (· ++ "\n")

end RustLua.Tree
