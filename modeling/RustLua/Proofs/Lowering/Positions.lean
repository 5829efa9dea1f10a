import RustLua.Proofs.Lowering.Steps
import RustLua.Proofs.Tree.Bare

/-! # Lowering and positions

A position gets into a rejection and nowhere else. So a tree and its bare copy lower to the
same, or are rejected for the same cause. A tree with an opaque macro call is rejected. -/
namespace RustLua.Lowering

open RustLua.Tree

variable {α β : Type}

/-- Two results that are the same, or rejections for the same cause. -/
def SameOutcome (x y : Except Rejection α) : Prop :=
  x.mapError Rejection.cause = y.mapError Rejection.cause

theorem SameOutcome.refl (x : Except Rejection α) : SameOutcome x x := rfl

theorem SameOutcome.bind {x y : Except Rejection α} {f g : α → Except Rejection β}
    (h : SameOutcome x y) (hf : ∀ a, SameOutcome (f a) (g a)) :
    SameOutcome (x >>= f) (y >>= g) := by
  unfold SameOutcome at h
  cases x with
  | error r =>
    cases y with
    | error r' => exact congrArg Except.error (Except.error.inj h)
    | ok => cases h
  | ok a =>
    cases y with
    | error => cases h
    | ok b =>
      obtain rfl : a = b := Except.ok.inj h
      exact hf a

theorem SameOutcome.map {x y : Except Rejection α} (h : SameOutcome x y) (f : α → β) :
    SameOutcome (f <$> x) (f <$> y) := by
  rw [← bind_pure_comp, ← bind_pure_comp]
  exact h.bind fun _ => rfl

/-! ## Bare trees -/

theorem sameOutcome_bindingName (binder : Binder) (p : Pattern) :
    SameOutcome (bindingName binder p.bare) (bindingName binder p) := by
  cases p with
  | ident name isMut byRef pos => cases byRef <;> rfl
  | _ => rfl

theorem sameOutcome_paramNames (binder : Binder) (params : List Param) :
    SameOutcome (paramNames binder (params.map Param.bare)) (paramNames binder params) := by
  induction params with
  | nil => rfl
  | cons p ps ih =>
    simp only [List.map_cons, paramNames, Param.bare]
    cases p.isReceiver with
    | true => exact .bind (.refl _) fun _ => ih.bind fun _ => rfl
    | false => exact (sameOutcome_bindingName binder p.pattern).bind fun _ => ih.bind fun _ => rfl

theorem sameOutcome_targetName (pos pos' : Pos) (e : Expr) :
    SameOutcome (targetName pos e.bare) (targetName pos' e) := by
  cases e with
  | path segments _ => rcases segments with - | ⟨name, - | ⟨_, _⟩⟩ <;> rfl
  | _ => rfl

theorem sameOutcome_literal (l : Literal) (negative : Bool) :
    SameOutcome (literal l.bare negative) (literal l negative) := by
  obtain ⟨kind, value, pos⟩ := l
  cases kind with
  | int | float =>
    simp only [Literal.bare, literal]
    split <;> rfl
  | _ => rfl

theorem isRange_bare (e : Expr) : isRange e.bare = isRange e := by
  induction e using isRange.induct with
  | case1 inner _ ih => exact ih
  | case2 => rfl
  | case3 e hparen hrange =>
    cases e with
    | paren inner pos => exact absurd rfl (hparen inner pos)
    | _ => rfl

theorem SameOutcome.statementOnly {place : Place} {what : String} {pos pos' : Pos}
    {x y : Except Rejection Ir.Item} (h : SameOutcome x y) :
    SameOutcome (place.statementOnly what pos x) (place.statementOnly what pos' y) := by
  unfold Place.statementOnly
  split
  · rfl
  · exact h

theorem sameOutcome_macroCall {place : Place} {path : List Bytes} {args : List Expr}
    {isOpaque : Bool} {pos : Pos}
    (hargs : SameOutcome (lowerValues (bareExprs args)) (lowerValues args))
    (hrest : SameOutcome (lowerValues (bareExprs args.tail)) (lowerValues args.tail)) :
    SameOutcome (lowerExpr place (.macroCall path (bareExprs args) isOpaque nowhere))
      (lowerExpr place (.macroCall path args isOpaque pos)) := by
  rw [lowerExpr.eq_def, lowerExpr.eq_def place (.macroCall path args isOpaque pos)]
  dsimp only
  generalize lastSegment path = name
  by_cases hprint : name = "println" ∨ name = "print"
  · rw [if_pos hprint, if_pos hprint]
    cases isOpaque with
    | true => rfl
    | false => exact hargs.bind fun _ => rfl
  rw [if_neg hprint, if_neg hprint]
  by_cases hformat : name = "format"
  · rw [if_pos hformat, if_pos hformat]
    cases args with
    | nil => rfl
    | cons template rest =>
      cases isOpaque with
      | true => rfl
      | false =>
        cases template with
        | lit l =>
          obtain ⟨kind, text, pos⟩ := l
          cases kind with
          | string => exact hrest.bind fun _ => rfl
          | _ => rfl
        | _ => rfl
  · rw [if_neg hformat, if_neg hformat]
    rfl

mutual

theorem sameOutcome_lowerExpr (place : Place) :
    (e : Expr) → SameOutcome (lowerExpr place e.bare) (lowerExpr place e)
  | .lit l => (sameOutcome_literal l false).map _
  | .path _ _ => rfl
  | .call func args _ =>
    (sameOutcome_lowerExpr .value func).bind fun _ =>
      (sameOutcome_lowerValues args).bind fun _ => rfl
  | .methodCall receiver method [step] _ => by
    simp only [Expr.bare, bareExprs, lowerExpr, isRange_bare]
    split
    · exact (sameOutcome_lowerExpr .iterated receiver).bind fun _ =>
        (sameOutcome_lowerExpr .value step).bind fun _ => rfl
    · rfl
  | .methodCall _ _ [] _ | .methodCall _ _ (_ :: _ :: _) _ => rfl
  | .field _ _ _ | .index _ _ _ | .ref _ _ _ | .cast _ _ _ | .letCond _ _ _ | .matchOn _ _ _
  | .structLit _ _ _ | .tryOp _ _ => rfl
  | .binary op left right _ =>
    (sameOutcome_lowerExpr .value left).bind fun _ =>
      (sameOutcome_lowerExpr .value right).bind fun _ => rfl
  | .assign target value _ => .statementOnly <|
    (sameOutcome_targetName _ _ target).bind fun _ =>
      (sameOutcome_lowerExpr .value value).bind fun _ => rfl
  | .assignOp _ target value _ => .statementOnly <|
    (sameOutcome_targetName _ _ target).bind fun _ =>
      (sameOutcome_lowerExpr .value value).bind fun _ => rfl
  | .unary op operand _ => by
    cases operand with
    | lit l =>
      cases op with
      | neg =>
        simp only [Expr.bare, lowerExpr, Literal.bare]
        split
        · exact (sameOutcome_literal l true).map _
        · rfl
      | _ => rfl
    | _ => cases op <;> rfl
  | .paren inner _ => by
    simp only [Expr.bare, lowerExpr]
    split
    · exact sameOutcome_lowerExpr .iterated inner
    · exact (sameOutcome_lowerExpr .value inner).bind fun _ => rfl
  | .tuple elements _ => (sameOutcome_lowerValues elements).bind fun _ => rfl
  | .array elements none _ => (sameOutcome_lowerValues elements).bind fun _ => rfl
  | .array _ (some _) _ => rfl
  | .block _ _ _ _ => by
    simp only [Expr.bare, lowerExpr]
    split <;> rfl
  | .closure params body _ _ => by
    cases body with
    | block body =>
      obtain ⟨stmts, pos⟩ := body
      exact (sameOutcome_paramNames .closureParameter params).bind fun _ =>
        (sameOutcome_lowerStmts true stmts).bind fun _ => rfl
    | _ => rfl
  | .ifElse cond (.mk stmts _) otherwise _ => .statementOnly <|
    (sameOutcome_lowerExpr .value cond).bind fun _ =>
      (sameOutcome_lowerStmts _ stmts).bind fun _ =>
        (sameOutcome_lowerElse _ otherwise).bind fun _ => rfl
  | .whileLoop cond (.mk stmts _) _ _ => .statementOnly <|
    (sameOutcome_lowerExpr .value cond).bind fun _ =>
      (sameOutcome_lowerStmts _ stmts).bind fun _ => rfl
  | .loop (.mk stmts _) _ _ => .statementOnly <|
    (sameOutcome_lowerStmts _ stmts).bind fun _ => rfl
  | .forLoop pattern iterated (.mk stmts _) _ _ => .statementOnly <|
    (sameOutcome_bindingName .loopVariable pattern).bind fun _ =>
      (sameOutcome_lowerExpr .iterated iterated).bind fun _ =>
        (sameOutcome_lowerStmts _ stmts).bind fun _ => rfl
  | .breakOut label value _ => .statementOnly <| by
    cases label <;> cases value <;> rfl
  | .continueOn label _ => .statementOnly <| by
    cases label <;> rfl
  | .returnWith none _ => .statementOnly rfl
  | .returnWith (some e) _ => .statementOnly <|
    (sameOutcome_lowerExpr .value e).bind fun _ => rfl
  | .macroCall path [] isOpaque _ => sameOutcome_macroCall rfl rfl
  | .macroCall path (e :: es) isOpaque _ =>
    sameOutcome_macroCall (sameOutcome_lowerValues (e :: es)) (sameOutcome_lowerValues es)
  | .range first last inclusive _ => by
    have hsome : (bareExpr? last).isSome = last.isSome := by cases last <;> rfl
    simp only [Expr.bare, lowerExpr, hsome]
    split
    · exact (sameOutcome_lowerBound first).bind fun _ =>
        (sameOutcome_lowerBound last).bind fun _ => rfl
    · rfl

theorem sameOutcome_lowerValues :
    (es : List Expr) → SameOutcome (lowerValues (bareExprs es)) (lowerValues es)
  | [] => rfl
  | e :: es =>
    (sameOutcome_lowerExpr .value e).bind fun _ => (sameOutcome_lowerValues es).bind fun _ => rfl

theorem sameOutcome_lowerBound :
    (e : Option Expr) → SameOutcome (lowerBound (bareExpr? e)) (lowerBound e)
  | none => rfl
  | some e => sameOutcome_lowerExpr .value e

theorem sameOutcome_lowerElse (isTail : Bool) :
    (e : Option Expr) → SameOutcome (lowerElse isTail (bareExpr? e)) (lowerElse isTail e)
  | none => rfl
  | some e => by
    cases e with
    | block body =>
      obtain ⟨stmts, pos⟩ := body
      exact (sameOutcome_lowerStmts isTail stmts).bind fun _ => rfl
    | ifElse cond body otherwise =>
      obtain ⟨stmts, pos⟩ := body
      exact (sameOutcome_lowerExpr .value cond).bind fun _ =>
        (sameOutcome_lowerStmts isTail stmts).bind fun _ =>
          (sameOutcome_lowerElse isTail otherwise).bind fun _ => rfl
    | _ => rfl

theorem sameOutcome_lowerStmts (isTail : Bool) :
    (ss : List Stmt) → SameOutcome (lowerStmts isTail (bareStmts ss)) (lowerStmts isTail ss)
  | [] => rfl
  | s :: ss => by
    have hempty : (bareStmts ss).isEmpty = ss.isEmpty := by cases ss <;> rfl
    simp only [bareStmts, lowerStmts, hempty]
    exact (sameOutcome_lowerStmt _ s).bind fun _ => (sameOutcome_lowerStmts isTail ss).bind fun _ =>
      rfl

theorem sameOutcome_lowerStmt (isTail : Bool) :
    (s : Stmt) → SameOutcome (lowerStmt isTail s.bare) (lowerStmt isTail s)
  | .binding pattern _ none _ _ => (sameOutcome_bindingName .letBinding pattern).bind fun _ => rfl
  | .binding pattern _ (some e) none _ =>
    (sameOutcome_bindingName .letBinding pattern).bind fun _ =>
      (sameOutcome_lowerExpr .value e).bind fun _ => rfl
  | .binding pattern _ (some _) (some _) _ =>
    (sameOutcome_bindingName .letBinding pattern).bind fun _ => rfl
  | .item i => sameOutcome_lowerItem i
  | .expr e _ => (sameOutcome_lowerExpr _ e).bind fun _ => rfl

theorem sameOutcome_lowerItem :
    (i : Item) → SameOutcome (lowerItem i.bare) (lowerItem i)
  | .fn _ _ _ none _ _ _ => rfl
  | .fn _ params returns (some (.mk stmts _)) _ _ _ => by
    have hreturns : returnsValue (returns.map TypeText.bare) = returnsValue returns := by
      cases returns <;> rfl
    simp only [Item.bare, lowerItem, bareBlock?, Block.bare, hreturns]
    exact (sameOutcome_paramNames .parameter params).bind fun _ =>
      (sameOutcome_lowerStmts _ stmts).bind fun _ => rfl
  | .foreign _ items _ => by
    simp only [Item.bare, lowerItem, List.map_map]
    rfl
  | .inlineModule _ items _ => (sameOutcome_lowerItems items).bind fun _ => rfl
  | .fileModule _ _ | .use _ _ | .impl _ _ _ _ | .typeDef _ _ _ => rfl
  | .const _ isStatic _ _ _ => rfl

theorem sameOutcome_lowerItems :
    (is : List Item) → SameOutcome (lowerItems (bareItems is)) (lowerItems is)
  | [] => rfl
  | i :: is =>
    (sameOutcome_lowerItem i).bind fun _ => (sameOutcome_lowerItems is).bind fun _ => rfl

end

/-! ## Opaque macro calls -/

theorem statementOnly_eq_ok {place : Place} {what : String} {pos : Pos}
    {x : Except Rejection Ir.Item} {i : Ir.Item} (h : place.statementOnly what pos x = .ok i) :
    x = .ok i := by
  unfold Place.statementOnly at h
  split at h
  · cases h
  · exact h

theorem and_true {a b : Bool} (ha : a = true) (hb : b = true) : (a && b) = true := by
  rw [ha, hb]
  rfl

theorem clear_of_targetName (pos : Pos) (e : Expr) :
    Ensures (targetName pos e) fun _ => e.clear = true := by
  intro name h
  cases e with
  | path => rfl
  | _ => cases h

mutual

theorem clear_of_lowerExpr {place : Place} :
    (e : Expr) → Ensures (lowerExpr place e) fun _ => e.clear = true
  | .lit _ | .path _ _ | .continueOn _ _ | .breakOut _ none _ | .returnWith none _ => fun _ _ => rfl
  | .call func args _ => (clear_of_lowerExpr func).bind fun _ _ hf =>
    (clear_of_lowerValues args).bind fun _ _ ha => .pure (and_true hf ha)
  | .methodCall receiver _ [step] _ => ensures_methodCall fun _ _ =>
    (clear_of_lowerExpr receiver).bind fun _ _ hr =>
      (clear_of_lowerExpr step).bind fun _ _ hs => .pure (and_true hr (and_true hs rfl))
  | .methodCall _ _ [] _ | .methodCall _ _ (_ :: _ :: _) _ => .error
  | .field _ _ _ | .index _ _ _ | .ref _ _ _ | .cast _ _ _ | .letCond _ _ _ | .matchOn _ _ _
  | .structLit _ _ _ | .tryOp _ _ => .error
  | .binary _ left right _ => (clear_of_lowerExpr left).bind fun _ _ hl =>
    (clear_of_lowerExpr right).bind fun _ _ hr => .pure (and_true hl hr)
  | .assign target value _ | .assignOp _ target value _ => ensures_statementOnly fun _ =>
    (clear_of_targetName _ target).bind fun _ _ ht =>
      (clear_of_lowerExpr value).bind fun _ _ hv => .pure (and_true ht hv)
  | .unary _ operand _ => ensures_unary fun l hl _ _ => by
    subst hl
    rfl
  | .paren inner _ => .ite (fun _ => clear_of_lowerExpr inner) fun _ =>
    (clear_of_lowerExpr inner).bind fun _ _ hi => .pure hi
  | .tuple elements _ => (clear_of_lowerValues elements).bind fun _ _ he => .pure he
  | .array elements none _ =>
    (clear_of_lowerValues elements).bind fun _ _ he => .pure (and_true he rfl)
  | .array _ (some _) _ => .error
  | .block _ _ _ _ => .ite (fun _ => .error) fun _ => .error
  | .closure _ body _ _ => by
    cases body with
    | block body =>
      obtain ⟨stmts, pos⟩ := body
      exact (ensures_true _).bind fun _ _ _ => (clear_of_lowerStmts stmts).bind fun _ _ hs =>
        .pure hs
    | _ => exact .error
  | .ifElse cond (.mk stmts _) otherwise _ => ensures_statementOnly fun _ =>
    (clear_of_lowerExpr cond).bind fun _ _ hc => (clear_of_lowerStmts stmts).bind fun _ _ hs =>
      (clear_of_lowerElse otherwise).bind fun _ _ ho => .pure (and_true (and_true hc hs) ho)
  | .whileLoop cond (.mk stmts _) _ _ => ensures_statementOnly fun _ =>
    (clear_of_lowerExpr cond).bind fun _ _ hc =>
      (clear_of_lowerStmts stmts).bind fun _ _ hs => .pure (and_true hc hs)
  | .loop (.mk stmts _) _ _ => ensures_statementOnly fun _ =>
    (clear_of_lowerStmts stmts).bind fun _ _ hs => .pure hs
  | .forLoop _ iterated (.mk stmts _) _ _ => ensures_statementOnly fun _ =>
    (ensures_true _).bind fun _ _ _ => (clear_of_lowerExpr iterated).bind fun _ _ hi =>
      (clear_of_lowerStmts stmts).bind fun _ _ hs => .pure (and_true hi hs)
  | .breakOut [] (some _) _ | .breakOut (_ :: _) (some _) _ => ensures_statementOnly fun _ => .error
  | .returnWith (some e) _ => ensures_statementOnly fun _ =>
    (clear_of_lowerExpr e).bind fun _ _ he => .pure he
  | .macroCall _ [] _ _ => ensures_macroCall_nil fun ho => by
    subst ho
    rfl
  | .macroCall _ (e :: es) _ _ => by
    refine ensures_macroCall (fun ho => ?_) fun ho _ _ hargs => ?_
    · subst ho
      exact clear_of_lowerValues (e :: es)
    · subst ho
      cases hargs
      exact clear_of_lowerValues es
  | .range first last _ _ => .ite (fun _ =>
      (clear_of_lowerBound first).bind fun _ _ hf =>
        (clear_of_lowerBound last).bind fun _ _ hl => .pure (and_true hf hl)) fun _ => .error

theorem clear_of_lowerValues :
    (es : List Expr) → Ensures (lowerValues es) fun _ => clearExprs es = true
  | [] => .pure rfl
  | e :: es => (clear_of_lowerExpr e).bind fun _ _ he =>
    (clear_of_lowerValues es).bind fun _ _ hes => .pure (and_true he hes)

theorem clear_of_lowerBound :
    (e : Option Expr) → Ensures (lowerBound e) fun _ => clearExpr? e = true
  | none => .pure rfl
  | some e => clear_of_lowerExpr e

theorem clear_of_lowerElse {isTail : Bool} :
    (e : Option Expr) → Ensures (lowerElse isTail e) fun _ => clearExpr? e = true
  | none => .pure rfl
  | some e => by
    cases e with
    | block body =>
      obtain ⟨stmts, pos⟩ := body
      exact (clear_of_lowerStmts stmts).bind fun _ _ hs => .pure hs
    | ifElse cond body otherwise =>
      obtain ⟨stmts, pos⟩ := body
      exact (clear_of_lowerExpr cond).bind fun _ _ hc =>
        (clear_of_lowerStmts stmts).bind fun _ _ hs =>
        (clear_of_lowerElse otherwise).bind fun _ _ ho => .pure (and_true (and_true hc hs) ho)
    | _ => exact .error

theorem clear_of_lowerStmts {isTail : Bool} :
    (ss : List Stmt) → Ensures (lowerStmts isTail ss) fun _ => clearStmts ss = true
  | [] => .pure rfl
  | s :: ss => (clear_of_lowerStmt s).bind fun _ _ hs =>
    (clear_of_lowerStmts ss).bind fun _ _ hss => .pure (and_true hs hss)

theorem clear_of_lowerStmt {isTail : Bool} :
    (s : Stmt) → Ensures (lowerStmt isTail s) fun _ => s.clear = true
  | .binding _ _ none _ _ | .binding _ _ (some _) (some _) _ =>
    (ensures_true _).bind fun _ _ _ => .error
  | .binding _ _ (some e) none _ => (ensures_true _).bind fun _ _ _ =>
    (clear_of_lowerExpr e).bind fun _ _ he => .pure (and_true he rfl)
  | .item i => clear_of_lowerItem i
  | .expr e _ => (clear_of_lowerExpr e).bind fun _ _ he => .pure he

theorem clear_of_lowerItem : (i : Item) → Ensures (lowerItem i) fun _ => i.clear = true
  | .fn _ _ _ none _ _ _ | .foreign _ _ _ => .pure rfl
  | .fn _ _ _ (some (.mk stmts _)) _ _ _ => (ensures_true _).bind fun _ _ _ =>
    (clear_of_lowerStmts stmts).bind fun _ _ hs => .pure hs
  | .inlineModule _ items _ => (clear_of_lowerItems items).bind fun _ _ hi => .pure hi
  | .fileModule _ _ | .use _ _ | .const _ _ _ _ _ | .impl _ _ _ _ | .typeDef _ _ _ => .error

theorem clear_of_lowerItems :
    (is : List Item) → Ensures (lowerItems is) fun _ => clearItems is = true
  | [] => .pure rfl
  | i :: is => (clear_of_lowerItem i).bind fun _ _ hi =>
    (clear_of_lowerItems is).bind fun _ _ his => .pure (and_true hi his)

end

end RustLua.Lowering
