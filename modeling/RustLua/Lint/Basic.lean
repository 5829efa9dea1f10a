import RustLua.Lint.Finding
import RustLua.Tree.Basic

/-!
Linting. One walk over a function's body notes what the rules look at, in source
order; the rules then read the notes. Functions inside a body are linted where
they stand, and their bodies count for themselves alone.
-/

namespace RustLua.Lint

open RustLua.Tree

/-- What a walk over a body notes. -/
inductive Note where
  /-- A let binding of a simple name. -/
  | binding (name : Bytes) (isMut : Bool) (pos : Pos)
  | loopVariable (name : Bytes) (pos : Pos)
  | closure (params : List Param)
  | division (pos : Pos)
  | read (name : Bytes)
  | assigned (name : Bytes)
  /-- The warnings about an item inside the body. -/
  | item (warnings : List Warning)

/-! ## Names -/

/-- The names in braces in a template, each up to a colon. -/
def bracedParts (inside : Option Bytes) : Bytes → List Bytes
  | [] => []
  | b :: rest =>
    match inside with
    | none => bracedParts (if b = Ascii.braceOpen then some [] else none) rest
    | some name =>
      if b = Ascii.braceClose then
        name.reverse.takeWhile (· != Ascii.colon) :: bracedParts none rest
      else bracedParts (some (b :: name)) rest

/-- The names that a format template reads. -/
def inlineNames (template : Bytes) : List Bytes := (bracedParts none template).filter isSnakeCase

/-- The name that a read of a path reads: its first segment. -/
def pathReads (segments : List Bytes) : List Note := segments.head?.toList.map .read

/-- The names that a macro argument reads without being an expression. -/
def templateReads : Expr → List Note
  | .lit ⟨.string, text, _⟩ => (inlineNames text).map .read
  | _ => []

def isPath : Expr → Bool
  | .path .. => true
  | _ => false

/-- The simple name that an assignment writes to. -/
def writtenName : Expr → List Note
  | .path [name] _ => [.assigned name]
  | _ => []

def simpleBinding : Pattern → List Note
  | .ident name isMut _ pos => [.binding name isMut pos]
  | _ => []

def simpleLoopVariable : Pattern → List Note
  | .ident name _ _ pos => [.loopVariable name pos]
  | _ => []

/-! ## Rules -/

/-- Parameters with simple names, receivers left out. -/
def simpleParams (params : List Param) : List (Bytes × Pos) :=
  params.filterMap fun p =>
    match p.pattern with
    | .ident name _ _ _ => if p.isReceiver then none else some (name, p.pos)
    | _ => none

def paramWarnings (params : List Param) : List Warning :=
  (simpleParams params).flatMap fun (name, pos) => nameWarnings .parameter name pos

/-- What a single note says. -/
def Note.warnings : Note → List Warning
  | .binding name _ pos => nameWarnings .variable name pos
  | .loopVariable name pos => nameWarnings .loopVariable name pos
  | .closure params => paramWarnings params
  | .division pos => [⟨.floatDivision, pos⟩]
  | .item warnings => warnings
  | .read _ | .assigned _ => []

def readNames (notes : List Note) : List Bytes :=
  notes.filterMap fun
    | .read name => some name
    | _ => none

def assignedNames (notes : List Note) : List Bytes :=
  notes.filterMap fun
    | .assigned name => some name
    | _ => none

def bindings (notes : List Note) : List (Bytes × Bool × Pos) :=
  notes.filterMap fun
    | .binding name isMut pos => some (name, isMut, pos)
    | _ => none

/-- A name that is meant to stay unused. -/
def isIgnored (name : Bytes) : Bool := name.headD 0 = Ascii.underscore

def unusedParams (function : Bytes) (params : List Param) (notes : List Note) : List Warning :=
  (simpleParams params).flatMap fun (name, pos) =>
    warnIf (!isIgnored name && !(readNames notes).elem name) (.unusedParameter name function) pos

def unusedVariables (notes : List Note) : List Warning :=
  (bindings notes).flatMap fun (name, _, pos) =>
    warnIf (!isIgnored name && !(readNames notes).elem name) (.unusedVariable name) pos

def neverReassigned (notes : List Note) : List Warning :=
  (bindings notes).flatMap fun (name, isMut, pos) =>
    warnIf (isMut && !(assignedNames notes).elem name) (.neverReassigned name) pos

/-- Where an item stands: the path of modules around it, and whether a function is. -/
structure Scope where
  modulePath : Bytes := []
  isNested : Bool := false

def Scope.enter (scope : Scope) (module : Bytes) : Scope :=
  { scope with modulePath :=
      Bytes.onlyIf (!scope.modulePath.isEmpty) (scope.modulePath ++ "::") ++ module }

/-- A function that does not end up where its declaration stands. -/
def placeWarnings (scope : Scope) (name : Bytes) (pos : Pos) : List Warning :=
  if scope.isNested then [⟨.nestedFunction name, pos⟩]
  else warnIf (!scope.modulePath.isEmpty) (.moduleFunction name scope.modulePath) pos

/-- The rules of a function with a body, given the notes on it. -/
def functionWarnings (scope : Scope) (name : Bytes) (params : List Param) (isEmpty : Bool)
    (pos : Pos) (notes : List Note) : List Warning :=
  warnIf (!isSnakeCase name) (.naming name) pos ++ placeWarnings scope name pos ++
    warnIf isEmpty (.emptyBody name) pos ++ paramWarnings params ++
    notes.flatMap Note.warnings ++ unusedParams name params notes ++ unusedVariables notes ++
    neverReassigned notes

/-! ## The walk -/

mutual

def exprNotes (scope : Scope) : Expr → List Note
  | .lit _ => []
  | .path segments _ => pathReads segments
  | .call func args _ => exprNotes scope func ++ exprsNotes scope args
  | .methodCall receiver _ args _ => exprNotes scope receiver ++ exprsNotes scope args
  | .field base _ _ => exprNotes scope base
  | .index base offset _ => exprNotes scope base ++ exprNotes scope offset
  | .binary op left right pos =>
    (if op = .div then [.division pos] else []) ++ exprNotes scope left ++ exprNotes scope right
  | .assign target value _ =>
    writtenName target ++ (if isPath target then [] else exprNotes scope target) ++
      exprNotes scope value
  | .assignOp op target value pos =>
    (if op = .div then [.division pos] else []) ++ writtenName target ++
      exprNotes scope target ++ exprNotes scope value
  | .unary _ operand _ => exprNotes scope operand
  | .ref _ operand _ => exprNotes scope operand
  | .cast operand _ _ => exprNotes scope operand
  | .paren inner _ => exprNotes scope inner
  | .tuple elements _ => exprsNotes scope elements
  | .array elements length _ => exprsNotes scope elements ++ optionNotes scope length
  | .block (.mk stmts _) _ _ _ => stmtsNotes scope stmts
  | .closure params body _ _ => .closure params :: exprNotes scope body
  | .ifElse cond (.mk stmts _) otherwise _ =>
    exprNotes scope cond ++ stmtsNotes scope stmts ++ optionNotes scope otherwise
  | .letCond _ value _ => exprNotes scope value
  | .whileLoop cond (.mk stmts _) _ _ => exprNotes scope cond ++ stmtsNotes scope stmts
  | .loop (.mk stmts _) _ _ => stmtsNotes scope stmts
  | .forLoop pattern iterated (.mk stmts _) _ _ =>
    simpleLoopVariable pattern ++ exprNotes scope iterated ++ stmtsNotes scope stmts
  | .breakOut _ value _ => optionNotes scope value
  | .continueOn _ _ => []
  | .returnWith value _ => optionNotes scope value
  | .macroCall _ args _ _ => args.flatMap templateReads ++ exprsNotes scope args
  | .range first last _ _ => optionNotes scope first ++ optionNotes scope last
  | .matchOn scrutinee arms _ => exprNotes scope scrutinee ++ armsNotes scope arms
  | .structLit _ fields _ => fieldsNotes scope fields
  | .tryOp operand _ => exprNotes scope operand

def exprsNotes (scope : Scope) : List Expr → List Note
  | [] => []
  | e :: es => exprNotes scope e ++ exprsNotes scope es

def optionNotes (scope : Scope) : Option Expr → List Note
  | none => []
  | some e => exprNotes scope e

def armsNotes (scope : Scope) : List Arm → List Note
  | [] => []
  | .mk _ guard body :: arms =>
    optionNotes scope guard ++ exprNotes scope body ++ armsNotes scope arms

def fieldsNotes (scope : Scope) : List FieldInit → List Note
  | [] => []
  | .mk _ value :: fields => exprNotes scope value ++ fieldsNotes scope fields

def elseNotes (scope : Scope) : Option Block → List Note
  | none => []
  | some (.mk stmts _) => stmtsNotes scope stmts

def stmtsNotes (scope : Scope) : List Stmt → List Note
  | [] => []
  | s :: ss => stmtNotes scope s ++ stmtsNotes scope ss

def stmtNotes (scope : Scope) : Stmt → List Note
  | .binding pattern _ init otherwise _ =>
    simpleBinding pattern ++ optionNotes scope init ++ elseNotes scope otherwise
  | .item i => [.item (itemWarnings { scope with isNested := true } i)]
  | .expr e _ => exprNotes scope e

def itemWarnings (scope : Scope) : Item → List Warning
  | .fn name params _ body _ _ pos =>
    nameWarnings .function name pos ++ match body with
    | none => []
    | some (.mk stmts _) =>
      functionWarnings scope name params stmts.isEmpty pos (stmtsNotes scope stmts)
  | .inlineModule name items pos =>
    nameWarnings .module name pos ++ itemsWarnings (scope.enter name) items
  | .fileModule name pos => nameWarnings .module name pos
  | .foreign _ items _ => items.flatMap fun f => nameWarnings .externName f.name f.pos
  | .use .. | .const .. | .impl .. | .typeDef .. => []

def itemsWarnings (scope : Scope) : List Item → List Warning
  | [] => []
  | i :: is => itemWarnings scope i ++ itemsWarnings scope is

end

/-- All warnings about a file, in the order of the rules and of the source. -/
def warnings (file : File) : List Warning := itemsWarnings {} file.items

def diagnostics (file : File) : List Diagnostic := (warnings file).map Warning.diagnostic

end RustLua.Lint
