import RustLua.Ir.Dump
import RustLua.Proofs.Bytes.Digits

/-! # The tree of a program can be read back

The tree that a program is shown as leaves out nothing but the types of its fields: a
step or an else branch that is not there is a key that is not there, a missing node is
null, and what leaves a loop is a word that stands alone, where any other text stands
below the name of its variant. So there is a reader of such trees. It is given a reader
of decimals, because a decimal is shown by a text that other bit patterns may share. -/
namespace RustLua.Ir

open Yaml (Node Entry Scalar)

variable {i : Item}

namespace BinaryOp

/-- The operator of a name; a number that is no operator's stands in parentheses. -/
def ofName? (name : Bytes) : Option BinaryOp :=
  match all.find? (·.name = name) with
  | some op => some op
  | none =>
    if (Bytes.ofString "BinaryOp(").isPrefixOf name then
      (Bytes.integerValue? (Bytes.dropEnding ")" (name.drop 9))).map .unknown
    else none

@[simp] theorem ofName?_name (op : BinaryOp) : ofName? op.name = some op := by
  cases op with
  | unknown n =>
    have hnone : all.find? (·.name = name (.unknown n)) = none := by
      have hshort : ∀ op ∈ all, op.name.take 2 ≠ Bytes.ofString "Bi" := by decide
      have hlong : (name (.unknown n)).take 2 = Bytes.ofString "Bi" := rfl
      rw [List.find?_eq_none]
      intro op hop he
      exact hshort op hop (by rw [of_decide_eq_true he, hlong])
    have hprefix : (Bytes.ofString "BinaryOp(").isPrefixOf (name (.unknown n)) = true :=
      List.isPrefixOf_iff_prefix.mpr ⟨_, (List.append_assoc ..).symm⟩
    have hinner : Bytes.dropEnding ")" ((name (.unknown n)).drop 9) = Bytes.integer n := by
      change Bytes.dropEnding ")" (Bytes.integer n ++ Bytes.ofString ")") = _
      have hsuffix : (Bytes.ofString ")").isSuffixOf (Bytes.integer n ++ Bytes.ofString ")") = true :=
        List.isSuffixOf_iff_suffix.mpr (List.suffix_append ..)
      rw [Bytes.dropEnding, if_pos hsuffix]
      simp
    simp only [ofName?, hnone, hprefix, if_true, hinner, Bytes.integerValue?_integer, Option.map_some]
  | _ => decide

end BinaryOp

/-! ## Reading trees -/

/-- The text that a decimal is shown by. -/
def shownDecimal (d : Double) : Bytes :=
  if d.isNaN then ".nan"
  else if d.isInfinite then if d.isNegative then "-.inf" else ".inf"
  else d.text

theorem decimalNode_eq (d : Double) : decimalNode d = .plain .float (shownDecimal d) := rfl

def scalarText? : Node → Option Bytes
  | .scalar s => some s.text
  | _ => none

def names? : Node → Option (List Bytes)
  | .seq _ items => items.mapM scalarText?
  | _ => none

def numbers? : Node → Option (List Int)
  | .seq _ items => items.mapM fun n => scalarText? n >>= Bytes.integerValue?
  | _ => none

/-- A node that has no fields. -/
def bareItem? (s : Scalar) : Option Item :=
  if s.tag = .null then some .missing
  else if s.text = "Break" then some .breakLoop
  else if s.text = "Continue" then some .continueLoop
  else none

/-- A node whose variant has a single text. -/
def leafItem? (decimal? : Bytes → Option Double) (variant text : Bytes) : Option Item :=
  if variant = "ExprIdent" then some (.ident text)
  else if variant = "ExprBool" then some (.bool (text = "true"))
  else if variant = "ExprInteger" then (Bytes.integerValue? text).map fun n => .integer (.ofInt n)
  else if variant = "ExprDecimal" then (decimal? text).map .decimal
  else if variant = "ExprString" then some (.string text)
  else none

section

variable (decimal? : Bytes → Option Double)

mutual

def item? : Node → Option Item
  | .scalar s => bareItem? s
  | .map [.mk variant fields] => variantItem? variant fields
  | _ => none

def variantItem? (variant : Bytes) : Node → Option Item
  | .scalar s => leafItem? decimal? variant s.text
  | .map entries => entriesItem? variant entries
  | .seq .. => none

/-- A node whose variant has named fields, by their number. -/
def entriesItem? (variant : Bytes) : List Entry → Option Item
  | [.mk a x] =>
    if variant = "Externs" ∧ a = "names" then return .externs (← names? x)
    else if variant = "Return" ∧ a = "expr" then return .returnValue (← item? x)
    else if variant = "ExprArray" ∧ a = "elements" then return .array (← items? x)
    else none
  | [.mk a x, .mk b y] =>
    if variant = "VarDecl" ∧ a = "name" ∧ b = "expr" then
      return .varDecl (← scalarText? x) (← item? y)
    else if variant = "VarSet" ∧ a = "name" ∧ b = "expr" then
      return .varSet (← scalarText? x) (← item? y)
    else if variant = "Mod" ∧ a = "name" ∧ b = "items" then
      return .mod (← scalarText? x) (← items? y)
    else if variant = "While" ∧ a = "cond" ∧ b = "body" then
      return .whileLoop (← item? x) (← items? y)
    else if variant = "ExprCall" ∧ a = "func" ∧ b = "args" then
      return .call (← item? x) (← items? y)
    else if variant = "ExprClosure" ∧ a = "params" ∧ b = "body" then
      return .closure (← names? x) (← items? y)
    else none
  | [.mk a x, .mk b y, .mk c z] =>
    if variant = "FunctionDefinition" ∧ a = "name" ∧ b = "params" ∧ c = "body" then
      return .function (← scalarText? x) (← names? y) (← items? z)
    else if variant = "IfElif" ∧ a = "cond" ∧ b = "body" ∧ c = "elifs" then
      return .ifElif (← item? x) (← items? y) (← branches? z) none
    else if variant = "ForIn" ∧ a = "var" ∧ b = "expr" ∧ c = "body" then
      return .forIn (← scalarText? x) (← item? y) (← items? z)
    else if variant = "ExprBinary" ∧ a = "op" ∧ b = "lhs" ∧ c = "rhs" then
      return .binary (← scalarText? x >>= BinaryOp.ofName?) (← item? y) (← item? z)
    else if variant = "ExprFString" ∧ a = "strings" ∧ b = "slots" ∧ c = "values" then
      return .format (← names? x) (← numbers? y) (← items? z)
    else none
  | [.mk a x, .mk b y, .mk c z, .mk d w] =>
    if variant = "IfElif" ∧ a = "cond" ∧ b = "body" ∧ c = "elifs" ∧ d = "else" then
      return .ifElif (← item? x) (← items? y) (← branches? z) (some (← items? w))
    else if variant = "ForRange" ∧ a = "var" ∧ b = "min" ∧ c = "max" ∧ d = "body" then
      return .forRange (← scalarText? x) (← item? y) (← item? z) .missing (← items? w)
    else none
  | [.mk a x, .mk b y, .mk c z, .mk d w, .mk e v] =>
    if variant = "ForRange" ∧ a = "var" ∧ b = "min" ∧ c = "max" ∧ d = "step" ∧ e = "body" then
      return .forRange (← scalarText? x) (← item? y) (← item? z) (← item? w) (← items? v)
    else none
  | _ => none

def items? : Node → Option (List Item)
  | .seq _ nodes => itemList? nodes
  | _ => none

def itemList? : List Node → Option (List Item)
  | [] => some []
  | node :: nodes => return (← item? node) :: (← itemList? nodes)

def branches? : Node → Option (List Branch)
  | .seq _ nodes => branchList? nodes
  | _ => none

def branchList? : List Node → Option (List Branch)
  | [] => some []
  | .map [.mk a x, .mk b y] :: nodes =>
    if a = "cond" ∧ b = "body" then
      return .mk (← item? x) (← items? y) :: (← branchList? nodes)
    else none
  | _ => none

end

def program? (node : Node) : Option Program := (items? decimal? node).map .mk

end

/-! ## Programs up to their decimals -/

mutual

/-- The node with each decimal replaced. -/
def Item.mapDecimals (f : Double → Double) : Item → Item
  | .missing => .missing
  | .function name params body => .function name params (mapDecimalsList f body)
  | .varDecl name value => .varDecl name (value.mapDecimals f)
  | .varSet name value => .varSet name (value.mapDecimals f)
  | .externs names => .externs names
  | .mod name items => .mod name (mapDecimalsList f items)
  | .breakLoop => .breakLoop
  | .continueLoop => .continueLoop
  | .returnValue value => .returnValue (value.mapDecimals f)
  | .ifElif cond body elifs otherwise =>
    .ifElif (cond.mapDecimals f) (mapDecimalsList f body) (mapDecimalsBranches f elifs)
      (mapDecimalsElse f otherwise)
  | .whileLoop cond body => .whileLoop (cond.mapDecimals f) (mapDecimalsList f body)
  | .forRange var min max step body =>
    .forRange var (min.mapDecimals f) (max.mapDecimals f) (step.mapDecimals f)
      (mapDecimalsList f body)
  | .forIn var iterated body => .forIn var (iterated.mapDecimals f) (mapDecimalsList f body)
  | .call func args => .call (func.mapDecimals f) (mapDecimalsList f args)
  | .ident name => .ident name
  | .bool value => .bool value
  | .integer value => .integer value
  | .decimal value => .decimal (f value)
  | .string value => .string value
  | .closure params body => .closure params (mapDecimalsList f body)
  | .array elements => .array (mapDecimalsList f elements)
  | .binary op lhs rhs => .binary op (lhs.mapDecimals f) (rhs.mapDecimals f)
  | .format fragments slots values => .format fragments slots (mapDecimalsList f values)

def mapDecimalsList (f : Double → Double) : List Item → List Item
  | [] => []
  | item :: items => item.mapDecimals f :: mapDecimalsList f items

def mapDecimalsBranches (f : Double → Double) : List Branch → List Branch
  | [] => []
  | .mk cond body :: elifs =>
    .mk (cond.mapDecimals f) (mapDecimalsList f body) :: mapDecimalsBranches f elifs

def mapDecimalsElse (f : Double → Double) : Option (List Item) → Option (List Item)
  | none => none
  | some body => some (mapDecimalsList f body)

end

def Program.mapDecimals (f : Double → Double) (program : Program) : Program :=
  ⟨mapDecimalsList f program.items⟩

/-! ## Reading what was shown -/

variable {decimal? : Bytes → Option Double} {f : Double → Double}

@[simp] theorem scalarText?_string (text : Bytes) : scalarText? (.string text) = some text := rfl

@[simp] theorem names?_namesNode (names : List Bytes) : names? (namesNode names) = some names := by
  have hall := List.mapM_pure (m := Option) (l := names) (f := id)
  simpa [names?, namesNode, List.mapM_map, Function.comp_def] using hall

@[simp] theorem numbers?_numbersNode (numbers : List Int) :
    numbers? (numbersNode numbers) = some numbers := by
  have hall := List.mapM_pure (m := Option) (l := numbers) (f := id)
  simpa [numbers?, numbersNode, List.mapM_map, Function.comp_def, scalarText?, Node.plain] using hall

@[simp] theorem item?_variant (name : String) (fields : List (String × Node)) :
    item? decimal? (variant name fields) =
      entriesItem? decimal? name (fields.map fun (key, value) => .mk key value) := by
  simp only [variant, Node.single, item?, variantItem?]

@[simp] theorem item?_single (name : String) (s : Scalar) :
    item? decimal? (.single name (.scalar s)) = leafItem? decimal? name s.text := by
  simp only [Node.single, item?, variantItem?]

@[simp] theorem items?_seq (isFlow : Bool) (list : List Node) :
    items? decimal? (.seq isFlow list) = itemList? decimal? list := by
  simp only [items?]

@[simp] theorem branches?_seq (isFlow : Bool) (list : List Node) :
    branches? decimal? (.seq isFlow list) = branchList? decimal? list := by
  simp only [branches?]

theorem optionalField_of_ne {key : String} (h : i ≠ .missing) (node : Node) :
    optionalField key i node = [(key, node)] := by
  cases i with
  | missing => exact absurd rfl h
  | _ => rfl

mutual

theorem item?_node (hf : ∀ d, decimal? (shownDecimal d) = some (f d)) :
    ∀ i : Item, item? decimal? i.node = some (i.mapDecimals f)
  | .missing | .breakLoop | .continueLoop => rfl
  | .function _ _ body => by
    have hb := itemList?_nodes hf body
    simp +decide [Item.node, entriesItem?, hb, Item.mapDecimals]
  | .varDecl _ value | .varSet _ value | .returnValue value => by
    have hv := item?_node hf value
    simp +decide [Item.node, entriesItem?, hv, Item.mapDecimals]
  | .externs names => by
    simp +decide [Item.node, entriesItem?, Item.mapDecimals]
  | .mod _ items => by
    have hi := itemList?_nodes hf items
    simp +decide [Item.node, entriesItem?, hi, Item.mapDecimals]
  | .ifElif cond body elifs otherwise => by
    have hc := item?_node hf cond
    have hb := itemList?_nodes hf body
    have he := branchList?_nodes hf elifs
    cases otherwise with
    | none =>
      simp +decide [Item.node, elseFields, entriesItem?, hc, hb, he, Item.mapDecimals,
        mapDecimalsElse]
    | some last =>
      have hl := itemList?_nodes hf last
      simp +decide [Item.node, elseFields, entriesItem?, hc, hb, he, hl, Item.mapDecimals,
        mapDecimalsElse]
  | .whileLoop cond body => by
    have hc := item?_node hf cond
    have hb := itemList?_nodes hf body
    simp +decide [Item.node, entriesItem?, hc, hb, Item.mapDecimals]
  | .forRange _ min max step body => by
    have hmin := item?_node hf min
    have hmax := item?_node hf max
    have hstep := item?_node hf step
    have hb := itemList?_nodes hf body
    -- a step that is not there has no key, so that the number of fields tells
    by_cases hs : step = .missing
    · subst hs
      simp +decide [Item.node, optionalField, entriesItem?, hmin, hmax, hb, Item.mapDecimals]
    · simp +decide [Item.node, optionalField_of_ne hs, entriesItem?, hmin, hmax, hstep, hb,
        Item.mapDecimals]
  | .forIn _ iterated body => by
    have hi := item?_node hf iterated
    have hb := itemList?_nodes hf body
    simp +decide [Item.node, entriesItem?, hi, hb, Item.mapDecimals]
  | .call func args => by
    have hfunc := item?_node hf func
    have ha := itemList?_nodes hf args
    simp +decide [Item.node, entriesItem?, hfunc, ha, Item.mapDecimals]
  | .ident name => by
    simp +decide [Item.node, Node.string, leafItem?, Item.mapDecimals]
  | .bool value => by
    cases value <;> simp +decide [Item.node, Node.plain, leafItem?, Item.mapDecimals]
  | .integer value => by
    simp +decide [Item.node, Node.plain, leafItem?, Item.mapDecimals]
  | .decimal value => by
    simp +decide [Item.node, decimalNode_eq, Node.plain, leafItem?, hf value, Item.mapDecimals]
  | .string value => by
    simp +decide [Item.node, leafItem?, Item.mapDecimals]
  | .closure _ body => by
    have hb := itemList?_nodes hf body
    simp +decide [Item.node, entriesItem?, hb, Item.mapDecimals]
  | .array elements => by
    have he := itemList?_nodes hf elements
    simp +decide [Item.node, entriesItem?, he, Item.mapDecimals]
  | .binary _ lhs rhs => by
    have hl := item?_node hf lhs
    have hr := item?_node hf rhs
    simp +decide [Item.node, entriesItem?, hl, hr, Item.mapDecimals]
  | .format _ _ values => by
    have hv := itemList?_nodes hf values
    simp +decide [Item.node, entriesItem?, hv, Item.mapDecimals]

theorem itemList?_nodes (hf : ∀ d, decimal? (shownDecimal d) = some (f d)) :
    ∀ items : List Item, itemList? decimal? (nodes items) = some (mapDecimalsList f items)
  | [] => rfl
  | i :: items => by
    have hi := item?_node hf i
    have hrest := itemList?_nodes hf items
    simp [nodes, itemList?, hi, hrest, mapDecimalsList]

theorem branchList?_nodes (hf : ∀ d, decimal? (shownDecimal d) = some (f d)) :
    ∀ elifs : List Branch,
      branchList? decimal? (branchNodes elifs) = some (mapDecimalsBranches f elifs)
  | [] => rfl
  | .mk cond body :: elifs => by
    have hc := item?_node hf cond
    have hb := itemList?_nodes hf body
    have hrest := branchList?_nodes hf elifs
    simp [branchNodes, branchList?, hc, hb, hrest, mapDecimalsBranches]

end

theorem program?_node (hf : ∀ d, decimal? (shownDecimal d) = some (f d)) (program : Program) :
    program? decimal? program.node = some (program.mapDecimals f) := by
  simp [program?, Program.node, itemList?_nodes hf, Program.mapDecimals]

/-! ## Decimals -/

open Classical in
/-- Some decimal that a text shows. -/
noncomputable def someDecimal? (text : Bytes) : Option Double :=
  if h : ∃ d, shownDecimal d = text then some h.choose else none

/-- The decimal that stands for all with the same text. -/
noncomputable def readDecimal (d : Double) : Double := (someDecimal? (shownDecimal d)).getD d

theorem someDecimal?_shownDecimal (d : Double) :
    someDecimal? (shownDecimal d) = some (readDecimal d) := by
  simp [readDecimal, someDecimal?]

theorem shownDecimal_readDecimal (d : Double) : shownDecimal (readDecimal d) = shownDecimal d := by
  have h : ∃ e, shownDecimal e = shownDecimal d := ⟨d, rfl⟩
  have hread : some h.choose = some (readDecimal d) := by
    rw [← someDecimal?_shownDecimal, someDecimal?, dif_pos h]
  rw [← Option.some.inj hread]
  exact h.choose_spec

/-- Nodes that are shown alike differ in decimals only. -/
theorem mapDecimals_eq_of_node_eq {j : Item} (h : i.node = j.node) :
    i.mapDecimals readDecimal = j.mapDecimals readDecimal := by
  have hi := item?_node someDecimal?_shownDecimal i
  have hj := item?_node someDecimal?_shownDecimal j
  rw [h] at hi
  exact Option.some.inj (hi.symm.trans hj)

theorem mapDecimals_eq_missing : i.mapDecimals f = .missing ↔ i = .missing := by
  cases i <;> simp [Item.mapDecimals]

theorem mapDecimals_eq_breakLoop : i.mapDecimals f = .breakLoop ↔ i = .breakLoop := by
  cases i <;> simp [Item.mapDecimals]

theorem mapDecimals_eq_string {text : Bytes} :
    i.mapDecimals f = .string text ↔ i = .string text := by
  cases i <;> simp [Item.mapDecimals]

theorem mapDecimalsElse_eq_none {o : Option (List Item)} : mapDecimalsElse f o = none ↔ o = none := by
  cases o <;> simp [mapDecimalsElse]

theorem mapDecimalsElse_eq_empty {o : Option (List Item)} :
    mapDecimalsElse f o = some [] ↔ o = some [] := by
  cases o with
  | none => simp [mapDecimalsElse]
  | some body => cases body <;> simp [mapDecimalsElse, mapDecimalsList]

/-- There is a reader that gives back every program from its tree, with each decimal
replaced by one that is shown by the same text. In particular a missing node, a break and
a string are shown like no other node, an else branch that is not there like no other and
an empty one like no other, and a step that is not there like no other. -/
theorem program_recovered_from_node :
    (∃ (read : Node → Option Program) (likeness : Double → Double),
      (∀ d, decimalNode (likeness d) = decimalNode d) ∧
      ∀ program : Program, read program.node = some (program.mapDecimals likeness)) ∧
    (∀ i : Item, i.node = Item.missing.node ↔ i = .missing) ∧
    (∀ i : Item, i.node = Item.breakLoop.node ↔ i = .breakLoop) ∧
    (∀ (i : Item) text, i.node = (Item.string text).node ↔ i = .string text) ∧
    (∀ cond body elifs otherwise, (Item.ifElif cond body elifs otherwise).node =
      (Item.ifElif cond body elifs none).node ↔ otherwise = none) ∧
    (∀ cond body elifs otherwise, (Item.ifElif cond body elifs otherwise).node =
      (Item.ifElif cond body elifs (some [])).node ↔ otherwise = some []) ∧
    ∀ var min max step body, (Item.forRange var min max step body).node =
      (Item.forRange var min max .missing body).node ↔ step = .missing := by
  refine ⟨⟨program? someDecimal?, readDecimal, fun d => ?_, program?_node someDecimal?_shownDecimal⟩,
    fun i => ⟨fun h => ?_, by rintro rfl; rfl⟩, fun i => ⟨fun h => ?_, by rintro rfl; rfl⟩,
    fun i text => ⟨fun h => ?_, by rintro rfl; rfl⟩,
    fun cond body elifs otherwise => ⟨fun h => ?_, by rintro rfl; rfl⟩,
    fun cond body elifs otherwise => ⟨fun h => ?_, by rintro rfl; rfl⟩,
    fun var min max step body => ⟨fun h => ?_, by rintro rfl; rfl⟩⟩
  · rw [decimalNode_eq, decimalNode_eq, shownDecimal_readDecimal]
  · exact mapDecimals_eq_missing.mp (mapDecimals_eq_of_node_eq h)
  · exact mapDecimals_eq_breakLoop.mp (mapDecimals_eq_of_node_eq h)
  · exact mapDecimals_eq_string.mp (mapDecimals_eq_of_node_eq h)
  · have hm := mapDecimals_eq_of_node_eq h
    simp only [Item.mapDecimals, Item.ifElif.injEq, true_and] at hm
    exact mapDecimalsElse_eq_none.mp hm
  · have hm := mapDecimals_eq_of_node_eq h
    simp only [Item.mapDecimals, Item.ifElif.injEq, true_and] at hm
    exact mapDecimalsElse_eq_empty.mp hm
  · have hm := mapDecimals_eq_of_node_eq h
    simp only [Item.mapDecimals, Item.forRange.injEq, true_and, and_true] at hm
    exact mapDecimals_eq_missing.mp hm

end RustLua.Ir
