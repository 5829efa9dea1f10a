import RustLua.Lowering.Basic
import RustLua.Proofs.Parser.PlacedFiles

/-! # Rejections and the source

What is rejected is a node of the tree, and the rejection stands where the node does. The node
inside a `&&` is never looked at: the outer reference is rejected first. So a rejection of an
accepted source stands at one of its tokens. -/
namespace RustLua.Lowering

open RustLua.Tree
open RustLua.Parser (Stands PlacedPattern PlacedParam PlacedExpr PlacedBlock PlacedStmt PlacedItem)

variable {tokens : List Token} {α β : Type} {pos : Pos}

/-- If the step is rejected, the rejection stands at one of the tokens. -/
def RejectsAt (tokens : List Token) (x : Except Rejection α) : Prop :=
  ∀ r, x = .error r → Stands tokens r.pos

theorem RejectsAt.ok {a : α} : RejectsAt tokens (.ok a) := nofun

theorem RejectsAt.pure {a : α} : RejectsAt tokens (pure a) := nofun

theorem RejectsAt.unsupported {construct : Construct} (h : Stands tokens pos) :
    RejectsAt tokens (unsupported (α := α) pos construct) := by
  intro r hr
  cases hr
  exact h

theorem RejectsAt.illFormed {fault : BindingFault} (h : Stands tokens pos) :
    RejectsAt tokens (illFormed (α := α) pos fault) := by
  intro r hr
  cases hr
  exact h

theorem RejectsAt.bind {x : Except Rejection α} {f : α → Except Rejection β}
    (h : RejectsAt tokens x) (hf : ∀ a, RejectsAt tokens (f a)) : RejectsAt tokens (x >>= f) := by
  intro r hr
  rcases bind_eq_error.mp hr with hx | ⟨a, -, ha⟩
  · exact h r hx
  · exact hf a r ha

theorem RejectsAt.map {x : Except Rejection α} {f : α → β} (h : RejectsAt tokens x) :
    RejectsAt tokens (f <$> x) := by
  intro r hr
  exact h r (map_eq_error.mp hr)

theorem RejectsAt.ite {c : Prop} [Decidable c] {x y : Except Rejection α}
    (hx : c → RejectsAt tokens x) (hy : ¬ c → RejectsAt tokens y) :
    RejectsAt tokens (if c then x else y) := by
  split
  · exact hx ‹_›
  · exact hy ‹_›

theorem RejectsAt.statementOnly {place : Place} {what : String}
    {x : Except Rejection Ir.Item} (hp : Stands tokens pos) (h : RejectsAt tokens x) :
    RejectsAt tokens (place.statementOnly what pos x) :=
  .ite (fun _ => .unsupported hp) fun _ => h

/-! ## Names and literals -/

theorem rejectsAt_bindingName (binder : Binder) {p : Pattern} (h : PlacedPattern tokens p) :
    RejectsAt tokens (bindingName binder p) := by
  cases h with
  | ident hp => exact .ite (fun _ => .illFormed hp) fun _ => .ok
  | wild hp => exact .ok
  | either hf ho => exact .illFormed hf.stands
  | _ => exact .illFormed ‹_›

theorem rejectsAt_paramNames (binder : Binder) {params : List Param}
    (h : ∀ p ∈ params, PlacedParam tokens p) :
    RejectsAt tokens (paramNames binder params) := by
  induction params with
  | nil => exact .ok
  | cons p ps ih =>
    obtain ⟨hp, hps⟩ := List.forall_mem_cons.mp h
    have hrest (name : Bytes) : RejectsAt tokens (do return name :: (← paramNames binder ps)) :=
      (ih hps).bind fun _ => .pure
    cases hp with
    | receiver => exact RejectsAt.pure.bind hrest
    | plain _ hq => exact (rejectsAt_bindingName binder hq).bind hrest

theorem rejectsAt_targetName (e : Expr) (h : Stands tokens pos) :
    RejectsAt tokens (targetName pos e) := by
  unfold targetName
  split
  · exact .ok
  · exact .illFormed h

theorem rejectsAt_literal {l : Literal} (negative : Bool) (h : Stands tokens l.pos) :
    RejectsAt tokens (literal l negative) := by
  unfold literal
  split
  case h_3 | h_4 =>
    split
    · exact .ok
    · exact .illFormed h
  case h_5 | h_6 => exact .unsupported h
  all_goals exact .ok

theorem rejectsAt_macroCall {place : Place} {path : List Bytes} {args : List Expr}
    {isOpaque : Bool} (hp : Stands tokens pos)
    (hargs : RejectsAt tokens (lowerValues args))
    (hrest : RejectsAt tokens (lowerValues args.tail)) :
    RejectsAt tokens (lowerExpr place (.macroCall path args isOpaque pos)) := by
  rw [lowerExpr.eq_def]
  dsimp only
  refine .ite (fun _ => ?_) fun _ => .ite (fun _ => ?_) fun _ => .unsupported hp
  · exact .ite (fun _ => .unsupported hp) fun _ => hargs.bind fun _ => .pure
  · cases args with
    | nil => exact .illFormed hp
    | cons template rest =>
      refine .ite (fun _ => .illFormed hp) fun _ => ?_
      split
      · exact hrest.bind fun _ => .pure
      · exact .illFormed hp

/-! ## Trees -/

mutual

theorem rejectsAt_lowerExpr (place : Place) :
    (e : Expr) → PlacedExpr tokens e → RejectsAt tokens (lowerExpr place e)
  | .lit _, .lit hp _ => (rejectsAt_literal false hp).map
  | .path _ _, _ => .ok
  | .call func args _, .call _ hf ha =>
    (rejectsAt_lowerExpr .value func hf).bind fun _ =>
      (rejectsAt_lowerValues args ha).bind fun _ => .pure
  | .methodCall receiver _ [step] _, .methodCall hp hr _ ha =>
    .ite (fun _ => (rejectsAt_lowerExpr .iterated receiver hr).bind fun _ =>
        (rejectsAt_lowerExpr .value step (ha step (by simp))).bind fun _ => .pure)
      fun _ => .unsupported hp
  | .methodCall _ _ [] _, .methodCall hp _ _ _ => .unsupported hp
  | .methodCall _ _ (_ :: _ :: _) _, .methodCall hp _ _ _ => .unsupported hp
  | .field _ _ _, .field hp _ _ => .unsupported hp
  | .index _ _ _, .index hp _ _ => .unsupported hp
  | .binary _ left right _, .binary _ _ hl hr =>
    (rejectsAt_lowerExpr .value left hl).bind fun _ =>
      (rejectsAt_lowerExpr .value right hr).bind fun _ => .pure
  | .assign target value _, .assign hp _ hv => .statementOnly hp <|
    (rejectsAt_targetName target hp).bind fun _ =>
      (rejectsAt_lowerExpr .value value hv).bind fun _ => .pure
  | .assignOp _ target value _, .assignOp hp _ _ hv => .statementOnly hp <|
    (rejectsAt_targetName target hp).bind fun _ =>
      (rejectsAt_lowerExpr .value value hv).bind fun _ => .pure
  | .unary op operand _, .unary hp ho => by
    rw [lowerExpr.eq_def]
    dsimp only
    split
    · cases ho with
      | lit hl _ => exact .ite (fun _ => (rejectsAt_literal true hl).map) fun _ => .unsupported hp
    · exact .unsupported hp
  | .ref _ _ _, h => .unsupported h.stands
  | .cast _ _ _, .cast hp _ _ => .unsupported hp
  | .paren inner _, .paren _ hi =>
    .ite (fun _ => rejectsAt_lowerExpr .iterated inner hi) fun _ =>
      (rejectsAt_lowerExpr .value inner hi).bind fun _ => .pure
  | .tuple elements _, .tuple _ he => (rejectsAt_lowerValues elements he).bind fun _ => .pure
  | .array elements none _, .array _ he _ => (rejectsAt_lowerValues elements he).bind fun _ => .pure
  | .array _ (some _) _, .array hp _ _ => .unsupported hp
  | .block _ _ _ _, .block hp _ => .ite (fun _ => .unsupported hp) fun _ => .unsupported hp
  | .closure params body _ _, .closure hp hq hb => by
    cases body with
    | block body =>
      obtain ⟨stmts, pos⟩ := body
      cases hb with
      | block _ hb =>
        cases hb with
        | mk _ hs =>
          exact (rejectsAt_paramNames .closureParameter hq).bind fun _ =>
            (rejectsAt_lowerStmts true stmts hs).bind fun _ => .pure
    | _ => exact .unsupported hp
  | .ifElse cond (.mk stmts _) otherwise _, .ifElse hp hc (.mk _ hs _) ho _ => .statementOnly hp <|
    (rejectsAt_lowerExpr .value cond hc).bind fun _ =>
      (rejectsAt_lowerStmts _ stmts hs).bind fun _ =>
        (rejectsAt_lowerElse _ otherwise ho).bind fun _ => .pure
  | .letCond _ _ _, .letCond hp _ _ => .unsupported hp
  | .whileLoop cond (.mk stmts _) _ _, .whileLoop hp hc (.mk _ hs _) => .statementOnly hp <|
    (rejectsAt_lowerExpr .value cond hc).bind fun _ =>
      (rejectsAt_lowerStmts _ stmts hs).bind fun _ => .pure
  | .loop (.mk stmts _) _ _, .loop hp (.mk _ hs _) => .statementOnly hp <|
    (rejectsAt_lowerStmts _ stmts hs).bind fun _ => .pure
  | .forLoop pattern iterated (.mk stmts _) _ _, .forLoop hp hq hi (.mk _ hs _) =>
    .statementOnly hp <|
      (rejectsAt_bindingName .loopVariable hq).bind fun _ =>
        (rejectsAt_lowerExpr .iterated iterated hi).bind fun _ =>
          (rejectsAt_lowerStmts _ stmts hs).bind fun _ => .pure
  | .breakOut _ value _, .breakOut hp _ => .statementOnly hp <|
    .ite (fun _ => .unsupported hp) fun _ => by
      cases value with
      | none => exact .ok
      | some e => exact .unsupported hp
  | .continueOn _ _, .continueOn hp => .statementOnly hp <|
    .ite (fun _ => .ok) fun _ => .unsupported hp
  | .returnWith none _, .returnWith hp _ => .statementOnly hp .ok
  | .returnWith (some e) _, .returnWith hp hv => .statementOnly hp <|
    (rejectsAt_lowerExpr .value e (hv e rfl)).bind fun _ => .pure
  | .macroCall _ [] _ _, .macroCall hp _ _ => rejectsAt_macroCall hp .ok .ok
  | .macroCall _ (e :: es) _ _, .macroCall hp _ ha =>
    rejectsAt_macroCall hp (rejectsAt_lowerValues (e :: es) ha)
      (rejectsAt_lowerValues es (List.forall_mem_cons.mp ha).2)
  | .range first last _ _, .range hp hf hl =>
    .ite (fun _ => (rejectsAt_lowerBound first hf).bind fun _ =>
        (rejectsAt_lowerBound last hl).bind fun _ => .pure)
      fun _ => .unsupported hp
  | .matchOn _ _ _, .matchOn hp _ _ => .unsupported hp
  | .structLit _ _ _, .structLit hp _ _ => .unsupported hp
  | .tryOp _ _, .tryOp hp _ => .unsupported hp

theorem rejectsAt_lowerValues :
    (es : List Expr) → (∀ e ∈ es, PlacedExpr tokens e) → RejectsAt tokens (lowerValues es)
  | [], _ => .ok
  | e :: es, h => by
    obtain ⟨he, hes⟩ := List.forall_mem_cons.mp h
    exact (rejectsAt_lowerExpr .value e he).bind fun _ =>
      (rejectsAt_lowerValues es hes).bind fun _ => .pure

theorem rejectsAt_lowerBound :
    (e : Option Expr) → (∀ a ∈ e, PlacedExpr tokens a) → RejectsAt tokens (lowerBound e)
  | none, _ => .ok
  | some e, h => rejectsAt_lowerExpr .value e (h e rfl)

theorem rejectsAt_lowerElse (isTail : Bool) :
    (e : Option Expr) → (∀ a ∈ e, PlacedExpr tokens a) → RejectsAt tokens (lowerElse isTail e)
  | none, _ => .ok
  | some e, h => by
    have he := h e rfl
    cases e with
    | block body =>
      obtain ⟨stmts, pos⟩ := body
      cases he with
      | block _ hb =>
        cases hb with
        | mk _ hs => exact (rejectsAt_lowerStmts isTail stmts hs).bind fun _ => .pure
    | ifElse cond body otherwise =>
      obtain ⟨stmts, pos⟩ := body
      cases he with
      | ifElse _ hc hb ho =>
        cases hb with
        | mk _ hs =>
          exact (rejectsAt_lowerExpr .value cond hc).bind fun _ =>
            (rejectsAt_lowerStmts isTail stmts hs).bind fun _ =>
              (rejectsAt_lowerElse isTail otherwise ho).bind fun _ => .pure
    | _ => exact .unsupported he.stands

theorem rejectsAt_lowerStmts (isTail : Bool) :
    (ss : List Stmt) → (∀ s ∈ ss, PlacedStmt tokens s) → RejectsAt tokens (lowerStmts isTail ss)
  | [], _ => .ok
  | s :: ss, h => by
    obtain ⟨hs, hss⟩ := List.forall_mem_cons.mp h
    exact (rejectsAt_lowerStmt _ s hs).bind fun _ =>
      (rejectsAt_lowerStmts isTail ss hss).bind fun _ => .pure

theorem rejectsAt_lowerStmt (isTail : Bool) :
    (s : Stmt) → PlacedStmt tokens s → RejectsAt tokens (lowerStmt isTail s)
  | .binding _ _ none _ _, .binding hp _ hq _ _ =>
    (rejectsAt_bindingName .letBinding hq).bind fun _ => .illFormed hp
  | .binding _ _ (some e) _ _, .binding hp _ hq hi _ =>
    (rejectsAt_bindingName .letBinding hq).bind fun _ => .ite (fun _ => .unsupported hp)
      fun _ => (rejectsAt_lowerExpr .value e (hi e rfl)).bind fun _ => .pure
  | .item i, .item hi => rejectsAt_lowerItem i hi
  | .expr e _, .expr he => (rejectsAt_lowerExpr _ e he).bind fun _ => .pure

theorem rejectsAt_lowerItem :
    (i : Item) → PlacedItem tokens i → RejectsAt tokens (lowerItem i)
  | .fn _ _ _ none _ _ _, _ => .ok
  | .fn _ _ _ (some (.mk stmts _)) _ _ _, .fn _ _ hq _ hb => by
    cases hb _ rfl with
    | mk _ hs =>
      exact (rejectsAt_paramNames .parameter hq).bind fun _ =>
        (rejectsAt_lowerStmts _ stmts hs).bind fun _ => .pure
  | .foreign _ _ _, _ => .ok
  | .inlineModule _ items _, .inlineModule _ _ hi =>
    (rejectsAt_lowerItems items hi).bind fun _ => .pure
  | .fileModule _ _, .fileModule hp _ => .unsupported hp
  | .use _ _, .use hp _ | .use _ _, .externCrate hp _ => .unsupported hp
  | .const _ _ _ _ _, .const hp _ _ _ => .unsupported hp
  | .impl _ _ _ _, .impl hp _ _ _ => .unsupported hp
  | .typeDef _ _ _, .typeDef hp _ => .unsupported hp

theorem rejectsAt_lowerItems :
    (is : List Item) → (∀ i ∈ is, PlacedItem tokens i) → RejectsAt tokens (lowerItems is)
  | [], _ => .ok
  | i :: is, h => by
    obtain ⟨hi, his⟩ := List.forall_mem_cons.mp h
    exact (rejectsAt_lowerItem i hi).bind fun _ =>
      (rejectsAt_lowerItems is his).bind fun _ => .pure

end

theorem rejectsAt_lowerFile {file : File} (h : ∀ i ∈ file.items, PlacedItem tokens i) :
    RejectsAt tokens (lowerFile file) :=
  (rejectsAt_lowerItems file.items h).bind fun _ => .pure

theorem Rejection.message_of_line_pos {r : Rejection} (h : 1 ≤ r.pos.line) :
    r.message = Bytes.decimal r.pos.line ++ ":" ++ Bytes.decimal r.pos.column ++ ": " ++
      r.cause.message := by
  have hline : (r.pos.line != 0) = true := by
    simp only [bne_iff_ne]
    omega
  rw [Rejection.message, hline]
  rfl

/-- An accepted source that has no program is rejected at one of its tokens that is not the
end, for whatever cause, and the message starts with that token's line and column. -/
theorem rejection_at_token {source : Bytes} {file : File} {r : Rejection}
    (hp : Parser.parseFile source = .ok file) (hl : lowerFile file = .error r) :
    ∃ tokens, Token.tokenize source = .ok tokens ∧
      ∃ t ∈ tokens, t.kind ≠ .eof ∧ t.pos = r.pos ∧ 1 ≤ t.pos.line ∧
        r.message = Bytes.decimal t.pos.line ++ ":" ++ Bytes.decimal t.pos.column ++ ": " ++
          r.cause.message := by
  obtain ⟨tokens, ht, hplaced⟩ := Parser.parseFile_placed hp
  obtain ⟨t, hm, hk, hpos⟩ := rejectsAt_lowerFile hplaced r hl
  have hline : 1 ≤ t.pos.line := Parser.one_le_line ht t hm
  refine ⟨tokens, ht, t, hm, hk, hpos, hline, ?_⟩
  rw [hpos] at hline ⊢
  exact r.message_of_line_pos hline

/-- The step of a loop holds a field behind a double reference. The loop, the call, the sum and
the field all start elsewhere: the rejection stands at the `&&`. -/
theorem rejection_at_token_double_reference :
    ∃ source file r tokens, source = Bytes.ofString
        "fn f()\x7bfor i in(0..9).step_by(1+&&a.b)\x7b\x7d\x7d" ∧
      Parser.parseFile source = .ok file ∧ lowerFile file = .error r ∧
      r.message = "1:33: unsupported construct: reference expression" ∧
      Token.tokenize source = .ok tokens ∧
      ∃ t ∈ tokens, t.kind ≠ .eof ∧ t.pos = r.pos ∧ 1 ≤ t.pos.line ∧
        r.message = Bytes.decimal t.pos.line ++ ":" ++ Bytes.decimal t.pos.column ++ ": " ++
          r.cause.message := by
  obtain ⟨source, hsource⟩ : ∃ source, source = Bytes.ofString
      "fn f()\x7bfor i in(0..9).step_by(1+&&a.b)\x7b\x7d\x7d" :=
    ⟨_, rfl⟩
  have hrun : (Parser.parseFile source).toOption.map (fun file =>
      (tryCatch ((fun _ => []) <$> lowerFile file) fun r => .ok r.message).toOption) =
      some (some (Bytes.ofString "1:33: unsupported construct: reference expression")) := by
    rw [hsource]
    decide +kernel
  obtain ⟨file, hf, hmessage⟩ := Option.map_eq_some_iff.mp hrun
  have hp := ok_of_toOption hf
  cases hl : lowerFile file with
  | ok program =>
    rw [hl] at hmessage
    cases hmessage
  | error r =>
    rw [hl] at hmessage
    obtain ⟨tokens, ht, hstands⟩ := rejection_at_token hp hl
    exact ⟨source, file, r, tokens, hsource, hp, hl, Option.some.inj hmessage, ht, hstands⟩

end RustLua.Lowering
