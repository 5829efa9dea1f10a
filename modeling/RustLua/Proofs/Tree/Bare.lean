import RustLua.Tree.Basic

/-! # Trees without positions, and trees without gaps

Two sources may have the same words in different places. What their trees have in common
is the bare tree, in which every node stands at the same position. A tree is clear if it
holds no macro call whose arguments could not be read. -/
namespace RustLua.Tree

/-- The position of every node of a bare tree. -/
def nowhere : Pos := ⟨0, 0⟩

def TypeText.bare (type : TypeText) : TypeText := { type with pos := nowhere }

def Literal.bare (l : Literal) : Literal := { l with pos := nowhere }

def ForeignItem.bare (i : ForeignItem) : ForeignItem := { i with pos := nowhere }

mutual

def Pattern.bare : Pattern → Pattern
  | .ident name isMut byRef _ => .ident name isMut byRef nowhere
  | .wild _ => .wild nowhere
  | .tuple elems _ => .tuple (barePatterns elems) nowhere
  | .lit l => .lit l.bare
  | .path segments _ => .path segments nowhere
  | .applied segments elems _ => .applied segments (barePatterns elems) nowhere
  | .either first others => .either first.bare (barePatterns others)
  | .ref inner _ => .ref inner.bare nowhere

def barePatterns : List Pattern → List Pattern
  | [] => []
  | p :: ps => p.bare :: barePatterns ps

end

def Param.bare (p : Param) : Param :=
  ⟨p.pattern.bare, p.type.map TypeText.bare, p.isReceiver, nowhere⟩

mutual

def Expr.bare : Expr → Expr
  | .lit l => .lit l.bare
  | .path segments _ => .path segments nowhere
  | .call func args _ => .call func.bare (bareExprs args) nowhere
  | .methodCall receiver method args _ =>
    .methodCall receiver.bare method (bareExprs args) nowhere
  | .field base name _ => .field base.bare name nowhere
  | .index base offset _ => .index base.bare offset.bare nowhere
  | .binary op left right _ => .binary op left.bare right.bare nowhere
  | .assign target value _ => .assign target.bare value.bare nowhere
  | .assignOp op target value _ => .assignOp op target.bare value.bare nowhere
  | .unary op operand _ => .unary op operand.bare nowhere
  | .ref isMut operand _ => .ref isMut operand.bare nowhere
  | .cast operand type _ => .cast operand.bare type.bare nowhere
  | .paren inner _ => .paren inner.bare nowhere
  | .tuple elements _ => .tuple (bareExprs elements) nowhere
  | .array elements length _ => .array (bareExprs elements) (bareExpr? length) nowhere
  | .block body isUnsafe label _ => .block body.bare isUnsafe label nowhere
  | .closure params body isMove _ =>
    .closure (params.map Param.bare) body.bare isMove nowhere
  | .ifElse cond body otherwise _ =>
    .ifElse cond.bare body.bare (bareExpr? otherwise) nowhere
  | .letCond pattern value _ => .letCond pattern.bare value.bare nowhere
  | .whileLoop cond body label _ => .whileLoop cond.bare body.bare label nowhere
  | .loop body label _ => .loop body.bare label nowhere
  | .forLoop pattern iterated body label _ =>
    .forLoop pattern.bare iterated.bare body.bare label nowhere
  | .breakOut label value _ => .breakOut label (bareExpr? value) nowhere
  | .continueOn label _ => .continueOn label nowhere
  | .returnWith value _ => .returnWith (bareExpr? value) nowhere
  | .macroCall path args isOpaque _ => .macroCall path (bareExprs args) isOpaque nowhere
  | .range first last inclusive _ =>
    .range (bareExpr? first) (bareExpr? last) inclusive nowhere
  | .matchOn scrutinee arms _ => .matchOn scrutinee.bare (bareArms arms) nowhere
  | .structLit path fields _ => .structLit path (bareFields fields) nowhere
  | .tryOp operand _ => .tryOp operand.bare nowhere

def bareExprs : List Expr → List Expr
  | [] => []
  | e :: es => e.bare :: bareExprs es

def bareExpr? : Option Expr → Option Expr
  | none => none
  | some e => some e.bare

def Arm.bare : Arm → Arm
  | .mk pattern guard body => .mk pattern.bare (bareExpr? guard) body.bare

def bareArms : List Arm → List Arm
  | [] => []
  | a :: as => a.bare :: bareArms as

def FieldInit.bare : FieldInit → FieldInit
  | .mk name value => .mk name value.bare

def bareFields : List FieldInit → List FieldInit
  | [] => []
  | f :: fs => f.bare :: bareFields fs

def Block.bare : Block → Block
  | .mk stmts _ => .mk (bareStmts stmts) nowhere

def bareBlock? : Option Block → Option Block
  | none => none
  | some b => some b.bare

def Stmt.bare : Stmt → Stmt
  | .binding pattern type init otherwise _ =>
    .binding pattern.bare (type.map TypeText.bare) (bareExpr? init) (bareBlock? otherwise) nowhere
  | .item i => .item i.bare
  | .expr e semi => .expr e.bare semi

def bareStmts : List Stmt → List Stmt
  | [] => []
  | s :: ss => s.bare :: bareStmts ss

def Item.bare : Item → Item
  | .fn name params returns body abi isPublic _ =>
    .fn name (params.map Param.bare) (returns.map TypeText.bare) (bareBlock? body) abi isPublic
      nowhere
  | .foreign abi items _ => .foreign abi (items.map ForeignItem.bare) nowhere
  | .inlineModule name items _ => .inlineModule name (bareItems items) nowhere
  | .fileModule name _ => .fileModule name nowhere
  | .use path _ => .use path nowhere
  | .const name isStatic type value _ =>
    .const name isStatic (type.map TypeText.bare) (bareExpr? value) nowhere
  | .impl type trait items _ => .impl type trait (bareItems items) nowhere
  | .typeDef keyword name _ => .typeDef keyword name nowhere

def bareItems : List Item → List Item
  | [] => []
  | i :: is => i.bare :: bareItems is

end

attribute [simp] Expr.bare Arm.bare FieldInit.bare Block.bare Stmt.bare Item.bare

@[simp] theorem barePatterns_eq_map (ps : List Pattern) : barePatterns ps = ps.map Pattern.bare := by
  induction ps with
  | nil => rfl
  | cons p ps ih => rw [barePatterns, ih, List.map_cons]

@[simp] theorem bareExprs_eq_map (es : List Expr) : bareExprs es = es.map Expr.bare := by
  induction es with
  | nil => rfl
  | cons e es ih => rw [bareExprs, ih, List.map_cons]

@[simp] theorem bareArms_eq_map (as : List Arm) : bareArms as = as.map Arm.bare := by
  induction as with
  | nil => rfl
  | cons a as ih => rw [bareArms, ih, List.map_cons]

@[simp] theorem bareFields_eq_map (fs : List FieldInit) : bareFields fs = fs.map FieldInit.bare := by
  induction fs with
  | nil => rfl
  | cons f fs ih => rw [bareFields, ih, List.map_cons]

@[simp] theorem bareStmts_eq_map (ss : List Stmt) : bareStmts ss = ss.map Stmt.bare := by
  induction ss with
  | nil => rfl
  | cons s ss ih => rw [bareStmts, ih, List.map_cons]

@[simp] theorem bareItems_eq_map (is : List Item) : bareItems is = is.map Item.bare := by
  induction is with
  | nil => rfl
  | cons i is ih => rw [bareItems, ih, List.map_cons]

@[simp] theorem bareExpr?_eq_map (e : Option Expr) : bareExpr? e = e.map Expr.bare := by
  cases e <;> rfl

@[simp] theorem bareBlock?_eq_map (b : Option Block) : bareBlock? b = b.map Block.bare := by
  cases b <;> rfl

/-! ## Opaque macro calls -/

mutual

def Expr.clear : Expr → Bool
  | .lit _ | .path .. | .continueOn .. => true
  | .field e _ _ | .unary _ e _ | .ref _ e _ | .cast e _ _ | .paren e _ | .closure _ e _ _
  | .letCond _ e _ | .tryOp e _ => e.clear
  | .index a b _ | .binary _ a b _ | .assign a b _ | .assignOp _ a b _ => a.clear && b.clear
  | .call func args _ => func.clear && clearExprs args
  | .methodCall receiver _ args _ => receiver.clear && clearExprs args
  | .tuple elements _ => clearExprs elements
  | .array elements length _ => clearExprs elements && clearExpr? length
  | .block body _ _ _ | .loop body _ _ => body.clear
  | .ifElse cond body otherwise _ => cond.clear && body.clear && clearExpr? otherwise
  | .whileLoop cond body _ _ => cond.clear && body.clear
  | .forLoop _ iterated body _ _ => iterated.clear && body.clear
  | .breakOut _ value _ | .returnWith value _ => clearExpr? value
  | .macroCall _ args isOpaque _ => !isOpaque && clearExprs args
  | .range first last _ _ => clearExpr? first && clearExpr? last
  | .matchOn scrutinee arms _ => scrutinee.clear && clearArms arms
  | .structLit _ fields _ => clearFields fields

def clearExprs : List Expr → Bool
  | [] => true
  | e :: es => e.clear && clearExprs es

def clearExpr? : Option Expr → Bool
  | none => true
  | some e => e.clear

def Arm.clear : Arm → Bool
  | .mk _ guard body => clearExpr? guard && body.clear

def clearArms : List Arm → Bool
  | [] => true
  | a :: as => a.clear && clearArms as

def FieldInit.clear : FieldInit → Bool
  | .mk _ value => value.clear

def clearFields : List FieldInit → Bool
  | [] => true
  | f :: fs => f.clear && clearFields fs

def Block.clear : Block → Bool
  | .mk stmts _ => clearStmts stmts

def clearBlock? : Option Block → Bool
  | none => true
  | some b => b.clear

def Stmt.clear : Stmt → Bool
  | .binding _ _ init otherwise _ => clearExpr? init && clearBlock? otherwise
  | .item i => i.clear
  | .expr e _ => e.clear

def clearStmts : List Stmt → Bool
  | [] => true
  | s :: ss => s.clear && clearStmts ss

def Item.clear : Item → Bool
  | .fn _ _ _ body _ _ _ => clearBlock? body
  | .inlineModule _ items _ | .impl _ _ items _ => clearItems items
  | .const _ _ _ value _ => clearExpr? value
  | .foreign .. | .fileModule .. | .use .. | .typeDef .. => true

def clearItems : List Item → Bool
  | [] => true
  | i :: is => i.clear && clearItems is

end

attribute [simp] Expr.clear Arm.clear FieldInit.clear Block.clear Stmt.clear Item.clear

@[simp] theorem clearExprs_eq_all (es : List Expr) : clearExprs es = es.all Expr.clear := by
  induction es with
  | nil => rfl
  | cons e es ih => rw [clearExprs, ih, List.all_cons]

@[simp] theorem clearArms_eq_all (as : List Arm) : clearArms as = as.all Arm.clear := by
  induction as with
  | nil => rfl
  | cons a as ih => rw [clearArms, ih, List.all_cons]

@[simp] theorem clearFields_eq_all (fs : List FieldInit) :
    clearFields fs = fs.all FieldInit.clear := by
  induction fs with
  | nil => rfl
  | cons f fs ih => rw [clearFields, ih, List.all_cons]

@[simp] theorem clearStmts_eq_all (ss : List Stmt) : clearStmts ss = ss.all Stmt.clear := by
  induction ss with
  | nil => rfl
  | cons s ss ih => rw [clearStmts, ih, List.all_cons]

@[simp] theorem clearItems_eq_all (is : List Item) : clearItems is = is.all Item.clear := by
  induction is with
  | nil => rfl
  | cons i is ih => rw [clearItems, ih, List.all_cons]

@[simp] theorem clearExpr?_eq_all (e : Option Expr) : clearExpr? e = e.all Expr.clear := by
  cases e <;> rfl

@[simp] theorem clearBlock?_eq_all (b : Option Block) : clearBlock? b = b.all Block.clear := by
  cases b <;> rfl

/-- Could the arguments of every macro call be read? -/
def File.clear (file : File) : Bool := clearItems file.items

end RustLua.Tree
