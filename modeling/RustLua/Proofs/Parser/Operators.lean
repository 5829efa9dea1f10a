import RustLua.Parser.File
import RustLua.Proofs.Parser.Steps

/-! # Operators group by their levels

Operands with binary operators between them have exactly one tree in which every operator
stands above tighter ones, and equal ones group to the left. Such a tree is found by hanging
one operand after the other into the tree on its left (`insert`), and the parser finds the
same: behind what it has read as the tree `e`, it goes on as if `e` had been its operand
(`precedence_reads`). The parser being a function, there is no second tree. -/
namespace RustLua.Parser

open RustLua.Tree

variable {op : BinaryOp} {operand : Expr} {g : Grammar}

/-! ## Phrases and their trees -/

mutual

/-- A name, a number or a phrase in parentheses, with unary operators in front. -/
inductive OperandTokens : List Token → Prop
  | name {x : Token} (h : x.kind = .ident) : OperandTokens [x]
  | number {x : Token} (h : x.kind = .intLit) : OperandTokens [x]
  | group {o c : Token} {ts : List Token} (ho : o.kind = .parenOpen) (h : PhraseTokens ts)
      (hc : c.kind = .parenClose) : OperandTokens (o :: (ts ++ [c]))
  | signed {x : Token} {ts : List Token} (op : UnaryOp) (hx : x.kind = op.kind)
      (h : OperandTokens ts) : OperandTokens (x :: ts)

/-- Operands with binary operators between them. -/
inductive PhraseTokens : List Token → Prop
  | operand {ts : List Token} (h : OperandTokens ts) : PhraseTokens ts
  | operator {x : Token} {ts us : List Token} (op : BinaryOp) (h : PhraseTokens ts)
      (hx : x.kind = op.kind) (h' : OperandTokens us) : PhraseTokens (ts ++ x :: us)

end

/-- The tokens of a tree from left to right. A tree starts where its first token stands, and
a binary operator where its left operand does. -/
inductive Spelled : Expr → List Token → Prop
  | name {x : Token} (h : x.kind = .ident) : Spelled (.path [x.literal] x.pos) [x]
  | number {x : Token} (h : x.kind = .intLit) : Spelled (.lit ⟨.int, x.literal, x.pos⟩) [x]
  | paren {o c : Token} {e : Expr} {ts : List Token} (ho : o.kind = .parenOpen)
      (h : Spelled e ts) (hc : c.kind = .parenClose) : Spelled (.paren e o.pos) (o :: (ts ++ [c]))
  | unary {x : Token} {e : Expr} {ts : List Token} (op : UnaryOp) (hx : x.kind = op.kind)
      (h : Spelled e ts) : Spelled (.unary op e x.pos) (x :: ts)
  | binary {x : Token} {l r : Expr} {ts us : List Token} (op : BinaryOp) (h : Spelled l ts)
      (hx : x.kind = op.kind) (h' : Spelled r us) :
      Spelled (.binary op l r l.pos) (ts ++ x :: us)

variable {ts us rest : List Token} {e l r : Expr} {x : Token} {s t : State}

/-- How tightly a tree is bound: a binary operator by its level, all else tighter than any. -/
def tightness : Expr → Nat
  | .binary op _ _ _ => op.level
  | _ => BinaryOp.castLevel

/-- Every operator stands above tighter ones: the right operand of a binary operator binds
tighter than the operator, the left one at least as tightly, and a unary operator stands
above no binary one. -/
def Grouped : Expr → Prop
  | .binary op l r _ => (op.level ≤ tightness l ∧ op.level < tightness r) ∧ Grouped l ∧ Grouped r
  | .unary _ e _ => tightness e = BinaryOp.castLevel ∧ Grouped e
  | .paren e _ => Grouped e
  | _ => True

theorem level_lt_castLevel (op : BinaryOp) : op.level < BinaryOp.castLevel := by
  cases op <;> decide

theorem lowest_le_level (op : BinaryOp) : BinaryOp.lowest ≤ op.level := by
  cases op <;> decide

theorem lowest_le_tightness (e : Expr) : BinaryOp.lowest ≤ tightness e := by
  unfold tightness
  split
  · exact lowest_le_level _
  · decide

/-! ## A tree for every phrase -/

/-- Hang an operator with its right operand into the tree on its left: above what binds at
least as tightly, and below what does not. -/
def insert (op : BinaryOp) (operand : Expr) : Expr → Expr
  | .binary op' l r pos =>
    if op.level ≤ op'.level then .binary op (.binary op' l r pos) operand pos
    else .binary op' l (insert op operand r) pos
  | e => .binary op e operand e.pos

theorem insert_eq (h : op.level ≤ tightness e) :
    insert op operand e = .binary op e operand e.pos := by
  cases e <;> simp_all [insert, tightness, Expr.pos]

theorem insert_binary {op' : BinaryOp} {pos : Pos}
    (h : op'.level < op.level) :
    insert op operand (.binary op' l r pos) = .binary op' l (insert op operand r) pos := by
  rw [insert, if_neg (by omega)]

theorem lt_tightness_insert {n : Nat} (hn : n < op.level)
    (h : n < tightness e) : n < tightness (insert op operand e) := by
  by_cases hop : op.level ≤ tightness e
  · rw [insert_eq hop]
    exact hn
  · cases e with
    | binary op' l r pos =>
      rw [insert_binary (by simpa [tightness] using hop)]
      exact h
    | _ => exact absurd (Nat.le_of_lt (level_lt_castLevel op)) hop

theorem Spelled.insert (h : Spelled e ts) (hx : x.kind = op.kind)
    (h' : Spelled operand us) : Spelled (insert op operand e) (ts ++ x :: us) := by
  induction h with
  | @binary y l r ts vs op' hl hy hr _ ihr =>
    by_cases hop : op.level ≤ op'.level
    · rw [insert_eq hop]
      exact .binary op (.binary op' hl hy hr) hx h'
    · rw [insert_binary (by omega), List.append_assoc]
      exact .binary op' hl hy ihr
  | name hy => exact .binary op (.name hy) hx h'
  | number hy => exact .binary op (.number hy) hx h'
  | paren ho he hc => exact .binary op (.paren ho he hc) hx h'
  | unary op' hy he => exact .binary op (.unary op' hy he) hx h'

theorem Grouped.insert (h : Spelled e ts) (hg : Grouped e)
    (ht : tightness operand = BinaryOp.castLevel) (hg' : Grouped operand) :
    Grouped (insert op operand e) := by
  have hop := level_lt_castLevel op
  induction h with
  | @binary y l r ts vs op' hl hy hr _ ihr =>
    by_cases hle : op.level ≤ op'.level
    · rw [insert_eq hle]
      exact ⟨⟨hle, by omega⟩, hg, hg'⟩
    · rw [insert_binary (by omega)]
      obtain ⟨⟨hleft, hright⟩, hgl, hgr⟩ := hg
      exact ⟨⟨hleft, lt_tightness_insert (by omega) hright⟩, hgl, ihr hgr⟩
  | name | number | paren | unary => exact ⟨⟨by simp only [tightness]; omega, by omega⟩, hg, hg'⟩

mutual

theorem OperandTokens.tree {ts : List Token} :
    OperandTokens ts → ∃ e, Spelled e ts ∧ Grouped e ∧ tightness e = BinaryOp.castLevel
  | .name h => ⟨_, .name h, trivial, rfl⟩
  | .number h => ⟨_, .number h, trivial, rfl⟩
  | .group ho h hc =>
    have ⟨_, hs, hg⟩ := h.tree
    ⟨_, .paren ho hs hc, hg, rfl⟩
  | .signed op hx h =>
    have ⟨_, hs, hg, ht⟩ := h.tree
    ⟨_, .unary op hx hs, ⟨ht, hg⟩, rfl⟩

theorem PhraseTokens.tree {ts : List Token} : PhraseTokens ts → ∃ e, Spelled e ts ∧ Grouped e
  | .operand h =>
    have ⟨e, hs, hg, _⟩ := h.tree
    ⟨e, hs, hg⟩
  | .operator _ h hx h' =>
    have ⟨_, hs, hg⟩ := h.tree
    have ⟨_, hs', hg', ht'⟩ := h'.tree
    ⟨_, hs.insert hx hs', .insert hs hg ht' hg'⟩

end

/-! ## What the parser reads -/

/-- The state with these tokens ahead, nothing having been reported. -/
structure Behind (s : State) (rest : List Token) (t : State) : Prop where
  ahead : t.ahead = rest
  bag : t.bag = s.bag
  noStruct : t.noStruct = s.noStruct

theorem Behind.trans {u : State} {rest' : List Token} (h : Behind s rest t)
    (h' : Behind t rest' u) : Behind s rest' u :=
  ⟨h'.ahead, h'.bag.trans h.bag, h'.noStruct.trans h.noStruct⟩

theorem Behind.advance (s : State) (k : Token.Kind) (rest : List Token) :
    Behind s rest { s with ahead := rest, previous := k } :=
  ⟨rfl, rfl, rfl⟩

/-- Does a token of this kind not continue the operand in front of it? -/
def endsOperand : Token.Kind → Bool
  | .pathSep | .bang | .braceOpen | .parenOpen | .bracketOpen | .dot | .question => false
  | _ => true

theorem endsOperand_ne {k k' : Token.Kind} (h : endsOperand k = true)
    (h' : endsOperand k' = false) : k ≠ k' := by
  rintro rfl
  rw [h] at h'
  cases h'

theorem postfixOps_done (h : endsOperand s.current.kind = true) (g : Grammar) (e : Expr) :
    postfixOps g e s = some (e, s) := by
  refine loop_done ?_
  rw [currentKind_bind]
  generalize s.current.kind = k at h
  cases k <;> first | rfl | cases h

theorem path_name (hs : s.ahead = x :: rest) (hx : x.kind = .ident)
    (h : endsOperand (rest.headD beyond).kind = true) :
    path s = some ([x.literal], { s with ahead := rest, previous := x.kind }) := by
  have hc := State.current_of_ahead hs
  have hsep : s.current.kind ≠ .pathSep := by rw [hc, hx]; decide
  refine (bind_eq (accept_refused hsep) _).trans (loop_done ?_)
  have hsegment : startsSegment s.current.kind = true := by rw [hc, hx]; rfl
  rw [pathRound, current_bind, if_pos hsegment, bind_eq (advance_cons hs),
    bind_eq (accept_refused (s := { s with ahead := rest, previous := x.kind })
      (endsOperand_ne h rfl)), hc]
  rfl

theorem pathExpr_name (hs : s.ahead = x :: rest) (hx : x.kind = .ident)
    (h : endsOperand (rest.headD beyond).kind = true) (g : Grammar) :
    pathExpr g s = some (.path [x.literal] x.pos, { s with ahead := rest, previous := x.kind }) := by
  have hbang : decide ((rest.headD beyond).kind = .bang) = false :=
    decide_eq_false (endsOperand_ne h rfl)
  have hbrace : decide ((rest.headD beyond).kind = .braceOpen) = false :=
    decide_eq_false (endsOperand_ne h rfl)
  rw [pathExpr, current_bind, State.current_of_ahead hs, bind_eq (path_name hs hx h), check_bind]
  change (if (decide ((rest.headD beyond).kind = .bang) && _) = true then _ else
    check .braceOpen >>= _ : Parser Expr) _ = _
  rw [hbang, Bool.false_and, if_neg Bool.false_ne_true, check_bind]
  change (if (decide ((rest.headD beyond).kind = .braceOpen) && _) = true then _ else _ :
    Parser Expr) _ = _
  rw [hbrace, Bool.false_and, if_neg Bool.false_ne_true]
  rfl

theorem unary_primary (hs : s.ahead = x :: rest)
    (hx : x.kind = .ident ∨ x.kind = .intLit ∨ x.kind = .parenOpen) :
    unary g s = (primary g >>= postfixOps g) s := by
  rw [unary, current_bind, State.current_of_ahead hs]
  rcases hx with hx | hx | hx <;> rw [hx] <;> rfl

theorem unary_name (hs : s.ahead = x :: rest) (hx : x.kind = .ident)
    (h : endsOperand (rest.headD beyond).kind = true) (g : Grammar) :
    unary g s = some (.path [x.literal] x.pos, { s with ahead := rest, previous := x.kind }) := by
  have hprimary : primary g s = pathExpr g s := by
    rw [primary, current_bind, State.current_of_ahead hs, hx]
  rw [unary_primary hs (.inl hx), bind_eq (hprimary.trans (pathExpr_name hs hx h g))]
  exact postfixOps_done (s := { s with ahead := rest, previous := x.kind }) h g _

theorem unary_number (hs : s.ahead = x :: rest) (hx : x.kind = .intLit)
    (h : endsOperand (rest.headD beyond).kind = true) (g : Grammar) :
    unary g s =
      some (.lit ⟨.int, x.literal, x.pos⟩, { s with ahead := rest, previous := x.kind }) := by
  have hprimary : primary g s = literalExpr .int s := by
    rw [primary, current_bind, State.current_of_ahead hs, hx]
  rw [unary_primary hs (.inr (.inl hx)), bind_eq (hprimary.trans (bind_eq (advance_cons hs) _))]
  exact postfixOps_done (s := { s with ahead := rest, previous := x.kind }) h g _

theorem unary_operator {op : UnaryOp} (hs : s.ahead = x :: rest)
    (hx : x.kind = op.kind)
    (h : g.unary { s with ahead := rest, previous := x.kind } = some (e, t)) :
    unary g s = some (.unary op e x.pos, t) := by
  have hop : UnaryOp.ofKind? x.kind = some op := by rw [hx]; cases op <;> rfl
  rw [unary, current_bind, State.current_of_ahead hs, hop]
  change (advance >>= fun _ => g.unary >>= _) s = _
  rw [bind_eq (advance_cons hs), bind_eq h]
  rfl

theorem primary_group (hs : s.ahead = x :: rest) (hx : x.kind = .parenOpen) :
    primary g s = parenOrTuple g s := by
  rw [primary, current_bind, State.current_of_ahead hs, hx]

theorem unary_paren {c : Token} (hs : s.ahead = x :: rest)
    (hx : x.kind = .parenOpen) (hinner : (rest.headD beyond).kind ≠ .parenClose)
    (h : g.expression { s with ahead := rest, previous := x.kind, noStruct := false } = some (e, t))
    (ht : t.ahead = c :: us) (hc : c.kind = .parenClose)
    (hend : endsOperand (us.headD beyond).kind = true) :
    unary g s = some (.paren e x.pos,
      { t with ahead := us, previous := c.kind, noStruct := s.noStruct }) := by
  have hgroup : parenOrTuple g s = some (.paren e x.pos,
      { t with ahead := us, previous := c.kind, noStruct := s.noStruct }) := by
    have hbefore : ({ s with noStruct := false } : State).ahead = x :: rest := hs
    have hafter : accept .parenClose { s with ahead := rest, previous := x.kind, noStruct := false }
        = some (false, _) := accept_refused hinner
    refine withNoStruct_eq (t := { t with ahead := us, previous := c.kind }) ?_
    rw [bind_eq (expect_cons hbefore hx), bind_eq hafter]
    change (g.expression >>= _) _ = _
    rw [bind_eq h, bind_eq (accept_eq ht hc)]
    rfl
  rw [unary_primary hs (.inr (.inr hx)), bind_eq ((primary_group hs hx).trans hgroup)]
  exact postfixOps_done (s := { t with ahead := us, previous := c.kind, noStruct := s.noStruct })
    hend g _

/-- What may stand behind a tree that is bound this tightly: the end of the phrase, or an
operator that does not bind tighter. -/
def Stops (n : Nat) (x : Token) : Prop :=
  x.kind = .semicolon ∨ x.kind = .parenClose ∨ ∃ op : BinaryOp, x.kind = op.kind ∧ op.level ≤ n

theorem Stops.of_operator {n : Nat} (hx : x.kind = op.kind) (hn : op.level ≤ n) :
    Stops n x :=
  .inr (.inr ⟨op, hx, hn⟩)

theorem Stops.mono {m n : Nat} (h : Stops m x) (hmn : m ≤ n) : Stops n x := by
  rcases h with h | h | ⟨op, h, hop⟩
  · exact .inl h
  · exact .inr (.inl h)
  · exact .of_operator h (Nat.le_trans hop hmn)

theorem Stops.endsOperand {n : Nat} (h : Stops n x) : endsOperand x.kind = true := by
  rcases h with h | h | ⟨op, h, -⟩
  · rw [h]; rfl
  · rw [h]; rfl
  · rw [h]; cases op <;> rfl

theorem ofKind?_kind (op : BinaryOp) : BinaryOp.ofKind? op.kind = some op := by
  cases op <;> rfl

/-- An operator that binds less tightly than asked for is left. -/
theorem Stops.binaryRest {n level : Nat} (h : Stops n s.current) (hn : n < level) (g : Grammar)
    (e : Expr) : binaryRest g level e s = some (e, s) := by
  refine loop_done ?_
  rw [currentKind_bind]
  rcases h with h | h | ⟨op, h, hop⟩
  · rw [h]; rfl
  · rw [h]; rfl
  · rw [h, ofKind?_kind]
    change (if level ≤ op.level then _ else _ : Parser (Step Expr Expr)) s = _
    rw [if_neg (by omega)]
    rfl

/-- An operator that binds tightly enough is taken, with its right operand. -/
theorem binaryRest_operator {level : Nat} (hs : s.ahead = x :: rest)
    (hx : x.kind = op.kind) (hlevel : level ≤ op.level)
    (h : g.precedence (op.level + 1) { s with ahead := rest, previous := x.kind } = some (r, t))
    (ht : t.ahead.length < s.ahead.length) :
    binaryRest g level e s = binaryRest g level (.binary op e r e.pos) t := by
  refine loop_more ?_ ht
  rw [currentKind_bind, State.current_of_ahead hs, hx, ofKind?_kind]
  change (if level ≤ op.level then _ else _ : Parser (Step Expr Expr)) s = _
  rw [if_pos hlevel, bind_eq (advance_cons hs), bind_eq h]
  rfl

/-! ## Whole phrases -/

theorem rangeMark_none (h : s.current.kind ≠ .dotDot) (h' : s.current.kind ≠ .dotDotEq) :
    rangeMark s = some (none, s) := by
  rw [rangeMark, currentKind_bind]
  generalize s.current.kind = k at h h'
  cases k <;> first | rfl | exact absurd rfl h | exact absurd rfl h'

theorem range_eq (hs : rangeMark s = some (none, s))
    (h : precedence g BinaryOp.lowest s = some (e, t)) (ht : rangeMark t = some (none, t)) :
    range g s = some (e, t) := by
  rw [range, bind_eq hs]
  change (precedence g BinaryOp.lowest >>= _) s = _
  rw [bind_eq h, bind_eq ht]
  rfl

/-- The end of a phrase is the end of the expression. -/
theorem expression_eq (hs : rangeMark s = some (none, s))
    (h : precedence g BinaryOp.lowest s = some (e, t))
    (ht : t.current.kind = .semicolon ∨ t.current.kind = .parenClose) :
    expression g s = some (e, t) := by
  have hmark : rangeMark t = some (none, t) := by
    apply rangeMark_none <;> rcases ht with ht | ht <;> rw [ht] <;> decide
  rw [expression, bind_eq (range_eq hs h hmark), assignRest, currentKind_bind]
  rcases ht with ht | ht <;> rw [ht] <;> rfl

/-- The kinds that an operand starts with. -/
def startsOperand : Token.Kind → Bool
  | .ident | .intLit | .parenOpen | .minus | .bang | .star => true
  | _ => false

theorem startsOperand_ne {k k' : Token.Kind} (h : startsOperand k = true)
    (h' : startsOperand k' = false) : k ≠ k' := by
  rintro rfl
  rw [h] at h'
  cases h'

theorem Spelled.head (h : Spelled e ts) :
    ∃ y ys, ts = y :: ys ∧ startsOperand y.kind = true := by
  induction h with
  | name hx | number hx => exact ⟨_, _, rfl, by rw [hx]; rfl⟩
  | paren ho => exact ⟨_, _, rfl, by rw [ho]; rfl⟩
  | unary op hx => exact ⟨_, _, rfl, by rw [hx]; cases op <;> rfl⟩
  | binary op _ _ _ ih =>
    obtain ⟨y, ys, rfl, hy⟩ := ih
    exact ⟨y, _, rfl, hy⟩

/-- The tree is read as an operand. -/
def ReadsOperand (e : Expr) (ts : List Token) : Prop :=
  ∀ ⦃d : Nat⦄ ⦃s : State⦄ ⦃x : Token⦄ ⦃rest : List Token⦄, ts.length ≤ d →
    s.ahead = ts ++ x :: rest → Stops BinaryOp.castLevel x →
    ∃ t, Behind s (x :: rest) t ∧ unary (grammar d) s = some (e, t)

/-- Behind the tokens of a tree the parser goes on as if the tree had been its operand. -/
def ReadsPhrase (e : Expr) (ts : List Token) : Prop :=
  ∀ ⦃d level : Nat⦄ ⦃s : State⦄ ⦃x : Token⦄ ⦃rest : List Token⦄, ts.length ≤ d →
    level ≤ tightness e → s.ahead = ts ++ x :: rest → Stops (tightness e) x →
    ∃ t, Behind s (x :: rest) t ∧ precedence (grammar d) level s = binaryRest (grammar d) level e t

theorem ReadsOperand.phrase (h : ReadsOperand e ts) (ht : tightness e = BinaryOp.castLevel) :
    ReadsPhrase e ts := by
  intro d level s x rest hd _ hs hx
  obtain ⟨t, hst, hr⟩ := h hd hs (ht ▸ hx)
  exact ⟨t, hst, bind_eq hr _⟩

/-- A phrase in front of an operator that binds less tightly, or at its end, is read whole. -/
theorem ReadsPhrase.precedence {n level d : Nat} (h : ReadsPhrase e ts) (hd : ts.length ≤ d)
    (hlevel : level ≤ tightness e) (hn : n < level) (hs : s.ahead = ts ++ x :: rest)
    (hx : Stops n x) : ∃ t, Behind s (x :: rest) t ∧ precedence (grammar d) level s = some (e, t) := by
  obtain ⟨t, hst, hr⟩ := h hd hlevel hs (hx.mono (by omega))
  rw [← State.current_of_ahead hst.ahead] at hx
  exact ⟨t, hst, hr.trans (hx.binaryRest hn _ _)⟩

theorem ReadsPhrase.expression {d : Nat} (h : ReadsPhrase e ts) (he : Spelled e ts)
    (hd : ts.length ≤ d) (hs : s.ahead = ts ++ x :: rest)
    (hx : x.kind = .semicolon ∨ x.kind = .parenClose) :
    ∃ t, Behind s (x :: rest) t ∧ expression (grammar d) s = some (e, t) := by
  have hstop : Stops 0 x := hx.imp_right .inl
  obtain ⟨t, hst, hr⟩ := h.precedence hd (lowest_le_tightness e) Nat.zero_lt_one hs hstop
  obtain ⟨y, ys, rfl, hy⟩ := he.head
  have hmark : rangeMark s = some (none, s) := by
    apply rangeMark_none <;> rw [State.current_of_ahead hs] <;> exact startsOperand_ne hy rfl
  refine ⟨t, hst, expression_eq hmark hr ?_⟩
  rwa [State.current_of_ahead hst.ahead]

theorem readsOperand_name (hx : x.kind = .ident) :
    ReadsOperand (.path [x.literal] x.pos) [x] := by
  intro d s y rest _ hs hy
  exact ⟨_, .advance s x.kind (y :: rest), unary_name hs hx hy.endsOperand _⟩

theorem readsOperand_number (hx : x.kind = .intLit) :
    ReadsOperand (.lit ⟨.int, x.literal, x.pos⟩) [x] := by
  intro d s y rest _ hs hy
  exact ⟨_, .advance s x.kind (y :: rest), unary_number hs hx hy.endsOperand _⟩

theorem ReadsOperand.unary {op : UnaryOp} (h : ReadsOperand e ts) (hx : x.kind = op.kind) :
    ReadsOperand (.unary op e x.pos) (x :: ts) := by
  intro d s y rest hd hs hy
  obtain ⟨d, rfl⟩ : ∃ d', d = d' + 1 := ⟨d - 1, by simp only [List.length_cons] at hd; omega⟩
  have hnext := Behind.advance s x.kind (ts ++ y :: rest)
  obtain ⟨t, hst, hr⟩ := h (Nat.le_of_succ_le_succ hd) hnext.ahead hy
  exact ⟨t, hnext.trans hst, unary_operator hs hx hr⟩

theorem ReadsPhrase.paren {o c : Token} (h : ReadsPhrase e ts) (he : Spelled e ts)
    (ho : o.kind = .parenOpen) (hc : c.kind = .parenClose) :
    ReadsOperand (.paren e o.pos) (o :: (ts ++ [c])) := by
  intro d s y rest hd hs hy
  simp only [List.length_cons, List.length_append, List.length_nil] at hd
  obtain ⟨d, rfl⟩ : ∃ d', d = d' + 1 := ⟨d - 1, by omega⟩
  have hs : s.ahead = o :: (ts ++ c :: y :: rest) := by rw [hs]; simp
  obtain ⟨t, hst, hr⟩ := h.expression (d := d)
    (s := { s with ahead := ts ++ c :: y :: rest, previous := o.kind, noStruct := false }) he
    (by omega) rfl (.inr hc)
  have hinner : ((ts ++ c :: y :: rest).headD beyond).kind ≠ .parenClose := by
    obtain ⟨z, zs, rfl, hz⟩ := he.head
    exact startsOperand_ne hz rfl
  exact ⟨{ t with ahead := y :: rest, previous := c.kind, noStruct := s.noStruct },
    ⟨rfl, hst.bag, rfl⟩, unary_paren hs ho hinner hr hst.ahead hc hy.endsOperand⟩

theorem ReadsPhrase.binary (hl : ReadsPhrase l ts) (hr : ReadsPhrase r us)
    (hx : x.kind = op.kind) (hleft : op.level ≤ tightness l) (hright : op.level < tightness r) :
    ReadsPhrase (.binary op l r l.pos) (ts ++ x :: us) := by
  intro d level s y rest hd hlevel hs hy
  simp only [List.length_append, List.length_cons] at hd
  simp only [tightness] at hlevel hy
  rw [List.append_assoc, List.cons_append] at hs
  obtain ⟨t, hst, hreadLeft⟩ := hl (d := d) (by omega) (Nat.le_trans hlevel hleft) hs
    (.of_operator hx hleft)
  obtain ⟨d, rfl⟩ : ∃ d', d = d' + 1 := ⟨d - 1, by omega⟩
  -- On the right only tighter operators are taken, so that `y` is left.
  have hnext := Behind.advance t x.kind (us ++ y :: rest)
  obtain ⟨u, htu, hreadRight⟩ := hr.precedence (d := d) (by omega) hright
    (Nat.lt_succ_self op.level) hnext.ahead hy
  refine ⟨u, (hst.trans hnext).trans htu, ?_⟩
  rw [hreadLeft]
  refine binaryRest_operator hst.ahead hx hlevel hreadRight ?_
  simp only [htu.ahead, hst.ahead, List.length_cons, List.length_append]
  omega

/-- A tree whose operators are grouped by level is read back from its tokens. -/
theorem Spelled.reads (h : Spelled e ts) (hg : Grouped e) :
    ReadsPhrase e ts ∧ (tightness e = BinaryOp.castLevel → ReadsOperand e ts) := by
  induction h with
  | name hx => exact ⟨(readsOperand_name hx).phrase rfl, fun _ => readsOperand_name hx⟩
  | number hx => exact ⟨(readsOperand_number hx).phrase rfl, fun _ => readsOperand_number hx⟩
  | paren ho he hc ih =>
    have hr := (ih hg).1.paren he ho hc
    exact ⟨hr.phrase rfl, fun _ => hr⟩
  | unary op hx _ ih =>
    have hr := ((ih hg.2).2 hg.1).unary hx
    exact ⟨hr.phrase rfl, fun _ => hr⟩
  | binary op _ hx _ ihl ihr =>
    obtain ⟨⟨hleft, hright⟩, hgl, hgr⟩ := hg
    refine ⟨(ihl hgl).1.binary (ihr hgr).1 hx hleft hright, fun ht => ?_⟩
    exact absurd ht (Nat.ne_of_lt (level_lt_castLevel op))

/-- A phrase in front of a semicolon is read to its end, without a report, as the only tree
that has its tokens and groups its operators by level. -/
theorem expression_groups_by_level (h : PhraseTokens ts) (hx : x.kind = .semicolon)
    (hs : s.ahead = ts ++ x :: rest) {depth : Nat} (hd : ts.length < depth) :
    ∃ e t, (grammar depth).expression s = some (e, t) ∧ Behind s (x :: rest) t ∧
      (Spelled e ts ∧ Grouped e) ∧ ∀ e', Spelled e' ts ∧ Grouped e' → e' = e := by
  obtain ⟨d, rfl⟩ : ∃ d, depth = d + 1 := ⟨depth - 1, by omega⟩
  have hread {e : Expr} (he : Spelled e ts) (hg : Grouped e) :
      ∃ t, Behind s (x :: rest) t ∧ expression (grammar d) s = some (e, t) :=
    (he.reads hg).1.expression he (Nat.le_of_lt_succ hd) hs (.inl hx)
  obtain ⟨e, he, hg⟩ := h.tree
  obtain ⟨t, hst, hr⟩ := hread he hg
  refine ⟨e, t, hr, hst, ⟨he, hg⟩, fun e' he' => ?_⟩
  obtain ⟨t', -, hr'⟩ := hread he'.1 he'.2
  rw [hr] at hr'
  cases hr'
  rfl

/-- The tokens of `-a - b * (7 < c)`. -/
def mixedPhrase : List Token :=
  [⟨.minus, "-", "-", ⟨1, 1⟩⟩, ⟨.ident, "a", "a", ⟨1, 2⟩⟩, ⟨.minus, "-", "-", ⟨1, 4⟩⟩,
    ⟨.ident, "b", "b", ⟨1, 6⟩⟩, ⟨.star, "*", "*", ⟨1, 8⟩⟩, ⟨.parenOpen, "(", "(", ⟨1, 10⟩⟩,
    ⟨.intLit, "7", "7", ⟨1, 11⟩⟩, ⟨.less, "<", "<", ⟨1, 13⟩⟩, ⟨.ident, "c", "c", ⟨1, 15⟩⟩,
    ⟨.parenClose, ")", ")", ⟨1, 16⟩⟩]

theorem expression_groups_by_level_mixed :
    PhraseTokens mixedPhrase ∧
      ∃ e t, (grammar 11).expression
          { ahead := mixedPhrase ++ [⟨.semicolon, ";", ";", ⟨1, 17⟩⟩] } = some (e, t) ∧
        Behind { ahead := mixedPhrase ++ [⟨.semicolon, ";", ";", ⟨1, 17⟩⟩] }
          [⟨.semicolon, ";", ";", ⟨1, 17⟩⟩] t ∧
        (Spelled e mixedPhrase ∧ Grouped e) ∧
          ∀ e', Spelled e' mixedPhrase ∧ Grouped e' → e' = e := by
  have hnumber : PhraseTokens ((mixedPhrase.drop 6).take 1) := .operand (.number rfl)
  have hgroup : PhraseTokens ((mixedPhrase.drop 6).take 3) := .operator .lt hnumber rfl (.name rfl)
  have h : PhraseTokens mixedPhrase :=
    .operator .mul (.operator .sub (.operand (.signed .neg rfl (.name rfl))) rfl (.name rfl)) rfl
      (.group rfl hgroup rfl)
  exact ⟨h, expression_groups_by_level h rfl rfl (by decide)⟩

end RustLua.Parser
