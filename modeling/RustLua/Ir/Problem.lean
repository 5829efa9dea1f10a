import RustLua.Ir.Basic
import RustLua.Unicode.Printable

/-!
Well-formedness of the intermediate form. Every violated condition gives one
problem: the path from the program to the node, and the defect. Problems come
in the order of the nodes, a node's own before those below it.
-/

namespace RustLua.Ir

/-- Children that must be there. -/
inductive Child where
  | declValue | setValue | ifCond | elifCond (i : Nat) | whileCond | rangeMin | rangeMax
  | iterated | callTarget | callArg (i : Nat) | element (i : Nat) | lhs | rhs
  | formatValue (i : Nat)
deriving DecidableEq, Repr

def Child.text : Child → Bytes
  | .declValue => "VarDecl expression"
  | .setValue => "VarSet expression"
  | .ifCond => "IfElif condition"
  | .elifCond i => "elif " ++ Bytes.decimal i ++ " condition"
  | .whileCond => "While condition"
  | .rangeMin => "ForRange min"
  | .rangeMax => "ForRange max"
  | .iterated => "ForIn iterable"
  | .callTarget => "call target"
  | .callArg i => "call arg " ++ Bytes.decimal i
  | .element i => "element " ++ Bytes.decimal i
  | .lhs => "ExprBinary lhs"
  | .rhs => "ExprBinary rhs"
  | .formatValue i => "format value " ++ Bytes.decimal i

/-- One step down from a node: into a body, to a child, to an item of a body. -/
inductive Step where
  | item (i : Nat)
  | function (name : Bytes)
  | mod (name : Bytes)
  | thenBody | elifBody (i : Nat) | elseBody | whileBody | rangeBody | inBody | closureBody
  | returned
  | rangeStep
  | child (c : Child)
deriving DecidableEq, Repr

def Step.text : Step → Bytes
  | .item i => " item " ++ Bytes.decimal i
  | .function name => " (function " ++ name ++ ")"
  | .mod name => " (mod " ++ name ++ ")"
  | .thenBody => " (then)"
  | .elifBody i => " (elif " ++ Bytes.decimal i ++ ")"
  | .elseBody => " (else)"
  | .whileBody => " (while body)"
  | .rangeBody => " (for body)"
  | .inBody => " (for-in body)"
  | .closureBody => " (closure)"
  | .returned => " (return)"
  | .rangeStep => " (step)"
  | .child c => " (" ++ c.text ++ ")"

abbrev Path := List Step

def Path.child (path : Path) (c : Child) : Path := path ++ [.child c]

def Path.text (path : Path) : Bytes := "unit" ++ path.flatMap Step.text

/-- What has a name that must not be blank. -/
inductive Named where
  | function | varDecl | varSet | externName | mod | rangeVar | inVar | ident
deriving DecidableEq, Repr

def Named.text : Named → String
  | .function => "FunctionDefinition"
  | .varDecl => "VarDecl"
  | .varSet => "VarSet"
  | .externName => "extern"
  | .mod => "Mod"
  | .rangeVar => "ForRange variable"
  | .inVar => "ForIn variable"
  | .ident => "ExprIdent"

inductive Defect where
  | missingItem
  | missingChild (c : Child)
  | blankName (what : Named)
  /-- An empty parameter, of a function with a name or of a closure. -/
  | emptyParameter (function : Option Bytes) (i : Nat)
  | noExterns
  | unknownOperator (op : BinaryOp)
  | compoundOperator (op : BinaryOp)
  | fragmentCount (fragments slots : Nat)
  | valueCount (values slots : Nat)
  | slotRange (i : Nat) (slot : Int) (values : Nat)
deriving DecidableEq, Repr

def Defect.text : Defect → Bytes
  | .missingItem => "nil item"
  | .missingChild c => c.text ++ " is nil"
  | .blankName what => what.text ++ " has empty name"
  | .emptyParameter function i =>
    (match function with
      | some name => "FunctionDefinition " ++ name
      | none => "ExprClosure") ++ " parameter " ++ Bytes.decimal i ++ " is empty"
  | .noExterns => "Externs has no names"
  | .unknownOperator op => "ExprBinary has unknown operator " ++ op.name
  | .compoundOperator op => "ExprBinary stores compound operator " ++ op.name
  | .fragmentCount fragments slots =>
    "ExprFString has " ++ Bytes.decimal fragments ++ " fragments for " ++ Bytes.decimal slots ++
      " slots"
  | .valueCount values slots =>
    "ExprFString has " ++ Bytes.decimal values ++ " values for " ++ Bytes.decimal slots ++ " slots"
  | .slotRange i slot values =>
    "ExprFString slot " ++ Bytes.decimal i ++ " refers to value " ++ Bytes.integer slot ++
      " of " ++ Bytes.decimal values

structure Problem where
  path : Path
  defect : Defect
deriving DecidableEq, Repr

def Problem.text (p : Problem) : Bytes := p.path.text ++ ": " ++ p.defect.text

/-! ## The conditions of one node -/

/-- A defect on a condition. -/
def defectIf (condition : Bool) (defect : Defect) : List Defect :=
  if condition then [defect] else []

def nameDefects (what : Named) (name : Bytes) : List Defect :=
  defectIf (Unicode.isBlankText name) (.blankName what)

def paramDefects (function : Option Bytes) (params : List Bytes) : List Defect :=
  params.zipIdx.flatMap fun (param, i) => defectIf param.isEmpty (.emptyParameter function i)

def operatorDefects (op : BinaryOp) : List Defect :=
  defectIf (!op.isKnown) (.unknownOperator op) ++ defectIf op.isCompound (.compoundOperator op)

def formatDefects (fragments slots : Nat) (numbers : List Int) (values : Nat) : List Defect :=
  defectIf (fragments ≠ slots + 1) (.fragmentCount fragments slots) ++
    defectIf (slots < values) (.valueCount values slots) ++
    numbers.zipIdx.flatMap fun (slot, i) =>
      defectIf (slot < 1 || (values : Int) < slot) (.slotRange i slot values)

/-- The defects of a node that do not concern its children. -/
def Item.defects : Item → List Defect
  | .missing => [.missingItem]
  | .function name params _ => nameDefects .function name ++ paramDefects (some name) params
  | .varDecl name _ => nameDefects .varDecl name
  | .varSet name _ => nameDefects .varSet name
  | .externs names =>
    defectIf names.isEmpty .noExterns ++ names.flatMap (nameDefects .externName)
  | .mod name _ => nameDefects .mod name
  | .forRange var _ _ _ _ => nameDefects .rangeVar var
  | .forIn var _ _ => nameDefects .inVar var
  | .ident name => nameDefects .ident name
  | .closure params _ => paramDefects none params
  | .binary op _ _ => operatorDefects op
  | .format fragments slots values =>
    formatDefects fragments.length slots.length slots values.length
  | _ => []

/-! ## All nodes -/

/-- The problems of a required child: one of its parent if it is missing. -/
def required (path : Path) (c : Child) (item : Item) (below : List Problem) :
    List Problem :=
  match item with
  | .missing => [⟨path, .missingChild c⟩]
  | _ => below

/-- The problems of an optional child: none if it is missing. -/
def optional (item : Item) (below : List Problem) : List Problem :=
  match item with
  | .missing => []
  | _ => below

mutual

def itemProblems (path : Path) (item : Item) : List Problem :=
  item.defects.map (⟨path, ·⟩) ++ match item with
  | .function name _ body => bodyProblems (path ++ [.function name]) 0 body
  | .varDecl _ value => required path .declValue value (itemProblems (path.child .declValue) value)
  | .varSet _ value => required path .setValue value (itemProblems (path.child .setValue) value)
  | .mod name items => bodyProblems (path ++ [.mod name]) 0 items
  | .returnValue value => optional value (itemProblems (path ++ [.returned]) value)
  | .ifElif cond body elifs otherwise =>
    required path .ifCond cond (itemProblems (path.child .ifCond) cond) ++
      bodyProblems (path ++ [.thenBody]) 0 body ++ elifProblems path 0 elifs ++
      elseProblems path otherwise
  | .whileLoop cond body =>
    required path .whileCond cond (itemProblems (path.child .whileCond) cond) ++
      bodyProblems (path ++ [.whileBody]) 0 body
  | .forRange _ min max step body =>
    required path .rangeMin min (itemProblems (path.child .rangeMin) min) ++
      required path .rangeMax max (itemProblems (path.child .rangeMax) max) ++
      optional step (itemProblems (path ++ [.rangeStep]) step) ++
      bodyProblems (path ++ [.rangeBody]) 0 body
  | .forIn _ iterated body =>
    required path .iterated iterated (itemProblems (path.child .iterated) iterated) ++
      bodyProblems (path ++ [.inBody]) 0 body
  | .call func args =>
    required path .callTarget func (itemProblems (path.child .callTarget) func) ++
      eachProblems path .callArg 0 args
  | .closure _ body => bodyProblems (path ++ [.closureBody]) 0 body
  | .array elements => eachProblems path .element 0 elements
  | .binary _ lhs rhs =>
    required path .lhs lhs (itemProblems (path.child .lhs) lhs) ++
      required path .rhs rhs (itemProblems (path.child .rhs) rhs)
  | .format _ _ values => eachProblems path .formatValue 0 values
  | _ => []

/-- Children that must be there, from number `i` on. -/
def eachProblems (path : Path) (c : Nat → Child) (i : Nat) : List Item → List Problem
  | [] => []
  | item :: items =>
    required path (c i) item (itemProblems (path.child (c i)) item) ++
      eachProblems path c (i + 1) items

/-- The items of a body, from number `i` on. -/
def bodyProblems (path : Path) (i : Nat) : List Item → List Problem
  | [] => []
  | item :: items =>
    itemProblems (path ++ [.item i]) item ++ bodyProblems path (i + 1) items

def elifProblems (path : Path) (i : Nat) : List Branch → List Problem
  | [] => []
  | .mk cond body :: elifs =>
    required path (.elifCond i) cond (itemProblems (path.child (.elifCond i)) cond) ++
      bodyProblems (path ++ [.elifBody i]) 0 body ++ elifProblems path (i + 1) elifs

def elseProblems (path : Path) : Option (List Item) → List Problem
  | none => []
  | some body => bodyProblems (path ++ [.elseBody]) 0 body

end

def Program.problems (program : Program) : List Problem := bodyProblems [] 0 program.items

/-- The texts of all problems; an absent program is one. -/
def problemTexts : Option Program → List Bytes
  | none => ["nil unit"]
  | some program => program.problems.map Problem.text

/-- The message about problems: the first of them, and how many more there are. -/
def problemsMessage : List Bytes → Bytes
  | [] => "invalid IR"
  | [p] => "invalid IR: " ++ p
  | p :: more => "invalid IR: " ++ p ++ " (and " ++ Bytes.decimal more.length ++ " more)"

end RustLua.Ir
