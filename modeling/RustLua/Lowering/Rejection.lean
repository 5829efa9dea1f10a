import RustLua.Bytes.Quoted
import RustLua.Decimal.Reading
import RustLua.Tree.Basic

/-!
Rejections: what has no counterpart in the intermediate form, and what would
have one but does not bind a simple name or a number in range.
-/

namespace RustLua.Lowering

open RustLua.Tree

/-- Syntax without a counterpart. -/
inductive Construct where
  | fileModule (name : Bytes)
  | useDeclaration (path : Bytes)
  | staticItem (name : Bytes)
  | constItem (name : Bytes)
  | implBlock (type : Bytes)
  | typeItem (keyword name : Bytes)
  | letElse (name : Bytes)
  | labelledBreak (label : Bytes)
  | breakValue
  | labelledContinue (label : Bytes)
  | nestedBlock
  | elseClause
  | usedAsValue (what : String)
  | methodCall (method : Bytes)
  | fieldAccess (name : Bytes)
  | indexing
  | unaryOperator (op : UnaryOp)
  | reference
  | cast (type : Bytes)
  | arrayRepeat
  | closureBody
  | letExpression
  | macroArguments (name : Bytes)
  | macroCall (name : Bytes)
  | rangeOutsideFor
  | matchExpression
  | structLiteral (path : List Bytes)
  | tryOperator
  | charLiteral
  | byteStringLiteral

/-- What a name is bound by. -/
inductive Binder where
  | parameter | closureParameter | letBinding | loopVariable

inductive BindingFault where
  | byReference (binder : Binder)
  | notSimple (binder : Binder)
  | noInitializer (name : Bytes)
  | assignmentTarget
  | integerRange (text : Bytes)
  | floatText (text digits : Bytes) (error : Double.ReadError)
  | formatTemplateMissing
  | formatTemplateKind

inductive Cause where
  | unsupported (construct : Construct)
  | illFormed (fault : BindingFault)

structure Rejection where
  cause : Cause
  pos : Pos

def Construct.message : Construct → Bytes
  | .fileModule name => "out-of-line module " ++ name
  | .useDeclaration path => "use declaration " ++ path
  | .staticItem name => "static item " ++ name
  | .constItem name => "const item " ++ name
  | .implBlock type => "impl block for " ++ type
  | .typeItem keyword name => keyword ++ " item " ++ name
  | .letElse name => "let-else binding " ++ name
  | .labelledBreak label => "labelled break " ++ label
  | .breakValue => "break with a value"
  | .labelledContinue label => "labelled continue " ++ label
  | .nestedBlock => "nested block"
  | .elseClause => "else clause must be a block or an if"
  | .usedAsValue what => what ++ " used as a value"
  | .methodCall method => "method call ." ++ method ++ "()"
  | .fieldAccess name => "field access ." ++ name
  | .indexing => "index expression"
  | .unaryOperator op => "unary operator " ++ op.kind.name
  | .reference => "reference expression"
  | .cast type => "cast to " ++ type
  | .arrayRepeat => "array repeat expression"
  | .closureBody => "closure body must be a block"
  | .letExpression => "let expression"
  | .macroArguments name => name ++ "! arguments"
  | .macroCall name => "macro " ++ name ++ "!"
  | .rangeOutsideFor => "range outside a for loop"
  | .matchExpression => "match expression"
  | .structLiteral path => "struct literal " ++ Bytes.join "::" path
  | .tryOperator => "? operator"
  | .charLiteral => "char literal"
  | .byteStringLiteral => "byte string literal"

def Binder.name : Binder → String
  | .parameter => "parameter"
  | .closureParameter => "closure parameter"
  | .letBinding => "let binding"
  | .loopVariable => "for loop variable"

/-- How a number that cannot be read is reported. -/
def readErrorMessage (digits : Bytes) (error : Double.ReadError) : Bytes :=
  "strconv.ParseFloat: parsing " ++ Bytes.quoted digits ++ ": " ++
    match error with
    | .invalidSyntax => "invalid syntax"
    | .outOfRange => "value out of range"

def BindingFault.message : BindingFault → Bytes
  | .byReference binder => binder.name ++ " binds by reference"
  | .notSimple binder => binder.name ++ " must bind a simple name"
  | .noInitializer name => "let binding " ++ name ++ " has no initializer"
  | .assignmentTarget => "assignment target must be a simple name"
  | .integerRange text => "integer literal " ++ text ++ " does not fit in 64 bits"
  | .floatText text digits error =>
    "float literal " ++ text ++ ": " ++ readErrorMessage digits error
  | .formatTemplateMissing => "format! needs a string literal template"
  | .formatTemplateKind => "format! template must be a string literal"

def Cause.message : Cause → Bytes
  | .unsupported construct => "unsupported construct: " ++ construct.message
  | .illFormed fault => "ill-formed binding: " ++ fault.message

/-- The message, behind its position if there is one. -/
def Rejection.message (r : Rejection) : Bytes :=
  Bytes.onlyIf (r.pos.line != 0)
      (Bytes.decimal r.pos.line ++ ":" ++ Bytes.decimal r.pos.column ++ ": ") ++
    r.cause.message

def unsupported {α : Type} (pos : Pos) (construct : Construct) : Except Rejection α :=
  .error ⟨.unsupported construct, pos⟩

def illFormed {α : Type} (pos : Pos) (fault : BindingFault) : Except Rejection α :=
  .error ⟨.illFormed fault, pos⟩

end RustLua.Lowering
