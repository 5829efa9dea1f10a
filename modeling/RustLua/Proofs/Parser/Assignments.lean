import RustLua.Proofs.Parser.AgreementFiles
import RustLua.Proofs.Parser.Operators
import RustLua.Proofs.Token.Order

/-! # Two spellings of an assignment

An assignment with an operator, and the same written out with the value in parentheses.
Each is followed through the parser up to the value and behind it. What is left open there
is how the value itself was read, in front of a semicolon and in front of a parenthesis;
about that the two runs agree. -/
namespace RustLua.Parser

open RustLua.Tree

variable {α : Type} {s t u : State} {x y : Token} {rest : List Token} {e v : Expr} {depth : Nat}
  {g : Grammar}

/-! ## Statements of a block -/

theorem skipAttributes_none (h : s.current.kind ≠ .pound) : skipAttributes s = some ((), s) := by
  refine loop_done ?_
  rw [bind_eq (accept_refused h)]
  rfl

/-- The first part is read where the list starts, and is not lost. -/
theorem partsUntil_first {closer : Token.Kind} {part : Parser (Option α)} {l : List α}
    {P : Option α → Prop} (hpart : ∀ {t}, Reads 0 s.ahead t part P)
    (h : partsUntil closer part s = some (l, t)) (hcloser : s.current.kind ≠ closer)
    (heof : s.current.kind ≠ .eof) (hq : t.bag = s.bag) :
    ∃ o u, part s = some (o, u) ∧ u.bag = s.bag ∧ o.toList <+: l := by
  obtain ⟨r, w, hround, hrest⟩ := loop_eq_some h
  simp only [check_bind, decide_eq_false hcloser, decide_eq_false heof, Bool.or_self,
    Bool.false_eq_true, if_false] at hround
  rw [bind_eq (rfl : (get : Parser State) s = some (s, s))] at hround
  obtain ⟨o, u, hpr, hround⟩ := bind_eq_some hround
  have hmore : r = .more ([] ++ o.toList) ∧ Moved u w := by
    change (if u.ahead.length = s.ahead.length then advance >>= fun _ => pure _ else pure _ :
      Parser (Step (List α) (List α))) u = _ at hround
    split at hround
    · obtain ⟨_, w', hadvance, hround⟩ := bind_eq_some hround
      cases hround
      exact ⟨rfl, (advance_eq_some hadvance).2.1⟩
    · cases hround
      exact ⟨rfl, .refl _⟩
  obtain ⟨rfl, huw⟩ := hmore
  have hsu := ((hpart s rfl (List.suffix_refl _)).2 o u hpr).moved
  have hothers := (reads_loop (I := fun acc => o.toList <+: acc) (Q := fun acc => o.toList <+: acc)
    (fun acc _ => .unlessEnd (.done id) fun hk => runsAt_part hk hpart fun a _ hacc => ?_) _ w rfl
    (huw.ahead.trans hsu.ahead)).2 l t hrest.2
  · obtain ⟨hquiet, hut⟩ := hsu.quiet (huw.trans hothers.moved) hq
    exact ⟨o, u, hpr, hquiet, hothers.quiet (huw.quiet hothers.moved hut).2 (List.prefix_refl _)⟩
  · exact hacc.trans (List.prefix_append _ _)

/-- A token that was expected and not missed was there. -/
theorem expect_eq_some {k : Token.Kind} (hk : k ≠ .eof) (h : expect k s = some (x, t))
    (hq : t.bag = s.bag) : ∃ rest, s.ahead = x :: rest ∧ x.kind = k ∧
      t = { s with ahead := rest, previous := x.kind } := by
  by_cases hc : s.current.kind = k
  · cases hs : s.ahead with
    | nil =>
      rw [State.current, hs] at hc
      exact absurd hc.symm hk
    | cons y rest =>
      rw [State.current_of_ahead hs] at hc
      rw [expect_cons hs hc] at h
      cases h
      exact ⟨rest, rfl, hc, rfl⟩
  · rw [expect_of_other hc] at h
    cases h
    exact absurd hq (s.report_bag_ne _ _)

theorem reads_stmt_grammar {tokens : List Token} {x : Token} (depth : Nat) :
    Reads 0 tokens x (stmt (grammar depth)) (fun o => ∀ s ∈ o, PlacedStmt tokens s) := by
  have hg : Sound 0 tokens (grammar depth) := sound_zero depth
  exact reads_stmt hg (fun _ => hg.body) hg.expression hg.item

theorem moves_finishStmt (e : Expr) : Moves (finishStmt e) :=
  moves_of_runs (n := 0) fun _ _ => reads_finishStmt e

/-- A block that is read quietly starts with its brace, and its position is that of the brace. -/
theorem block_eq_some {b : Block} (h : block (grammar depth) s = some (b, t))
    (hq : t.bag = s.bag) : ∃ brace rest stmts u, s.ahead = brace :: rest ∧
      b = .mk stmts brace.pos ∧
      partsUntil .braceClose (stmt (grammar depth))
        { s with ahead := rest, previous := brace.kind, noStruct := false } = some (stmts, u) ∧
      u.bag = s.bag := by
  obtain ⟨t, hinner, rfl⟩ := withNoStruct_eq_some h
  obtain ⟨brace, u, hopen, hinner⟩ := bind_eq_some hinner
  obtain ⟨stmts, v, hparts, hinner⟩ := bind_eq_some hinner
  obtain ⟨close, w, hclose, hinner⟩ := bind_eq_some hinner
  cases hinner
  have huv : Moved u v :=
    moves_of_runs (fun _ _ => reads_partsUntil fun _ => reads_stmt_grammar depth) _ _ _ hparts
  have hvw := moves_expect _ _ _ _ hclose
  obtain ⟨hsu, huw⟩ := (moves_expect _ _ _ _ hopen).quiet (huv.trans hvw) hq
  obtain ⟨rest, hs, -, rfl⟩ := expect_eq_some (by simp) hopen hsu
  exact ⟨brace, rest, stmts, v, hs, rfl, hparts, (huv.quiet hvw huw).1⟩

/-! ## The target -/

/-- Is this `=` or one of the signs that hold an operator? -/
def assigns (k : Token.Kind) : Bool := decide (k = .assign) || (AssignOp.ofKind? k).isSome

theorem assigns_kind (op : AssignOp) : assigns op.kind = true := by
  cases op <;> rfl

theorem assigns_ne {k j : Token.Kind} (h : assigns k = true) (h' : assigns j = false) :
    k ≠ j := by
  rintro rfl
  rw [h] at h'
  cases h'

theorem endsOperand_of_assigns {k : Token.Kind} (h : assigns k = true) :
    endsOperand k = true := by
  cases k <;> first | rfl | cases h

theorem binaryRest_done {level : Nat} (h : BinaryOp.ofKind? s.current.kind = none)
    (has : s.current.kind ≠ .kwAs) : binaryRest g level e s = some (e, s) := by
  refine loop_done ?_
  rw [currentKind_bind, h]
  change (if s.current.kind = .kwAs ∧ _ then _ else _ : Parser (Step Expr Expr)) s = _
  rw [if_neg fun hk => has hk.1]
  rfl

/-- The name in front of an assignment sign is its target. -/
theorem range_target (hs : s.ahead = x :: y :: rest) (hx : x.kind = .ident)
    (hy : assigns y.kind = true) : range g s = some (.path [x.literal] x.pos,
      { s with ahead := y :: rest, previous := x.kind }) := by
  have hoperator : BinaryOp.ofKind? y.kind = none := by
    generalize y.kind = k at hy
    cases k <;> first | rfl | cases hy
  have hname : rangeMark s = some (none, s) := by
    apply rangeMark_none <;> rw [State.current_of_ahead hs, hx] <;> decide
  refine range_eq hname ?_ (rangeMark_none (assigns_ne hy rfl) (assigns_ne hy rfl))
  refine (bind_eq (unary_name hs hx (endsOperand_of_assigns hy) g) _).trans ?_
  exact binaryRest_done hoperator (assigns_ne hy rfl)

theorem expression_assignOp {op : AssignOp} (hs : s.ahead = x :: y :: rest)
    (hx : x.kind = .ident) (hy : y.kind = op.kind) :
    expression g s = (g.expression >>= fun v =>
      pure (.assignOp op (.path [x.literal] x.pos) v x.pos))
      { s with ahead := rest, previous := y.kind } := by
  have hassigns : assigns y.kind = true := hy ▸ assigns_kind op
  have hop : AssignOp.ofKind? y.kind = some op := by rw [hy]; cases op <;> rfl
  have hne : y.kind ≠ .assign := by rw [hy]; cases op <;> decide
  rw [expression, bind_eq (range_target hs hx hassigns), assignRest, currentKind_bind]
  rw [State.current_of_ahead rfl, if_neg hne, hop]
  exact bind_eq (advance_cons rfl) _

theorem expression_assign (hs : s.ahead = x :: y :: rest)
    (hx : x.kind = .ident) (hy : y.kind = .assign) :
    expression g s = (g.expression >>= fun v =>
      pure (.assign (.path [x.literal] x.pos) v x.pos))
      { s with ahead := rest, previous := y.kind } := by
  have hassigns : assigns y.kind = true := hy ▸ rfl
  rw [expression, bind_eq (range_target hs hx hassigns), assignRest, currentKind_bind]
  change (if y.kind = .assign then _ else _ : Parser Expr) _ = _
  rw [if_pos hy]
  exact bind_eq (advance_cons rfl) _

/-! ## The statement -/

/-- A statement that starts with a name and an assignment sign is an expression. -/
theorem stmt_assignment (hs : s.ahead = x :: y :: rest) (hx : x.kind = .ident)
    (hy : assigns y.kind = true) :
    stmt g s = (g.expression >>= fun e => some <$> finishStmt e) s := by
  have hc : s.current.kind = .ident := by rw [State.current_of_ahead hs, hx]
  have hne {k : Token.Kind} (hk : Token.Kind.ident ≠ k) : s.current.kind ≠ k := hc ▸ hk
  have hnext : (s.peek 1).kind = y.kind := by rw [State.peek, hs]; rfl
  have hitem : startsItem s = some (false, s) := by
    rw [startsItem, bind_eq (rfl : (get : Parser State) s = some (s, s))]
    simp only [hc, hnext, assigns_ne hy (j := .bang) rfl, assigns_ne hy (j := .kwFn) rfl,
      assigns_ne hy (j := .ident) rfl, and_false, or_self, decide_false]
    rfl
  have hblock : startsBlockLike s = some (false, s) := by
    rw [startsBlockLike, currentKind_bind, hc]
    rfl
  rw [stmt, bind_eq (skipAttributes_none (hne (by decide))),
    bind_eq (accept_refused (hne (by decide)))]
  change (check .braceClose >>= _) s = _
  rw [check_bind, decide_eq_false (hne (by decide))]
  change (check .kwLet >>= _) s = _
  rw [check_bind, decide_eq_false (hne (by decide))]
  change (startsItem >>= _) s = _
  rw [bind_eq hitem]
  change (startsBlockLike >>= _) s = _
  rw [bind_eq hblock]
  rfl

/-- What ends with a semicolon was read in front of one. -/
theorem finishStmt_semicolon {e' : Expr} (he : isMacroCall e = false)
    (h : finishStmt e s = some (.expr e' true, t)) (hq : t.bag = s.bag) :
    s.current.kind = .semicolon ∧ e' = e := by
  by_cases hc : s.current.kind = .semicolon
  · refine ⟨hc, ?_⟩
    cases hs : s.ahead with
    | nil =>
      rw [State.current, hs] at hc
      cases hc
    | cons y rest =>
      rw [State.current_of_ahead hs] at hc
      rw [finishStmt, bind_eq (accept_eq hs hc)] at h
      cases h
      rfl
  · rw [finishStmt, bind_eq (accept_refused hc)] at h
    change (check .braceClose >>= _) s = _ at h
    rw [check_bind] at h
    by_cases hbrace : s.current.kind = .braceClose
    · rw [decide_eq_true hbrace] at h
      cases h
    · rw [decide_eq_false hbrace] at h
      change (if isMacroCall e = true ∧ _ then _ else current >>= fun c => report _ >>= _ :
        Parser Stmt) s = _ at h
      rw [if_neg (by simp [he])] at h
      have hloud : Loud (report (.expected "; after expression" s.current) >>=
          fun _ => recover >>= fun _ => pure (Stmt.expr e true)) :=
        (loud_report _).next fun _ => moves_recover.bind fun _ => .pure _
      exact ((hloud s _ t h).2 hq).elim

theorem map_some_eq_some {p : Parser α} {a : α} (h : (some <$> p) s = some (some a, t)) :
    p s = some (a, t) := by
  rw [← bind_pure_comp] at h
  obtain ⟨b, u, hp, hq⟩ := bind_eq_some h
  cases hq
  exact hp

/-- With an operator in the sign, the value is what stands between it and the semicolon. -/
theorem short_assignment {op : AssignOp} (hs : s.ahead = x :: y :: rest) (hx : x.kind = .ident)
    (hy : y.kind = op.kind) (h : stmt (grammar depth) s = some (some (.expr e true), t))
    (hq : t.bag = s.bag) : ∃ d v u,
      (grammar d).expression { s with ahead := rest, previous := y.kind } = some (v, u) ∧
      u.bag = s.bag ∧ u.current.kind = .semicolon ∧
      e = .assignOp op (.path [x.literal] x.pos) v x.pos := by
  rw [stmt_assignment hs hx (hy ▸ assigns_kind op)] at h
  obtain ⟨e', u, hexpression, hfinish⟩ := bind_eq_some h
  cases depth with
  | zero => cases hexpression
  | succ d =>
    have hexpression : expression (grammar d) s = some (e', u) := hexpression
    rw [expression_assignOp hs hx hy] at hexpression
    obtain ⟨v, u, hv, he⟩ := bind_eq_some hexpression
    cases he
    have hfinish := map_some_eq_some hfinish
    obtain ⟨hvalue, hend⟩ := ((movesOn_grammar d).expression _ _ _ hv).quiet
      (moves_finishStmt _ _ _ _ hfinish) hq
    obtain ⟨hsemi, rfl⟩ := finishStmt_semicolon rfl hfinish hend
    exact ⟨d, v, u, hv, hvalue, hsemi, rfl⟩

/-! ## Behind an operand -/

/-- A parser for what may follow an operand. Its result holds the operand, and at a semicolon
there is nothing to read. -/
structure Tail (p : Expr → Parser Expr) : Prop where
  moves : ∀ e, Moves (p e)
  clear : ∀ {e s e' t}, p e s = some (e', t) → t.bag = s.bag → e'.clear = true → e.clear = true
  stops : ∀ {e s}, s.current.kind = .semicolon → p e s = some (e, s)

theorem Tail.comp {p q : Expr → Parser Expr} (hp : Tail p) (hq : Tail q) :
    Tail (fun e => p e >>= q) where
  moves e s a t hr := by
    obtain ⟨b, u, hpr, hqr⟩ := bind_eq_some hr
    exact (hp.moves e s b u hpr).trans (hq.moves b u a t hqr)
  clear {e s e' t} hr hquiet hc := by
    obtain ⟨b, u, hpr, hqr⟩ := bind_eq_some hr
    obtain ⟨hsu, hut⟩ := (hp.moves e s b u hpr).quiet (hq.moves b u e' t hqr) hquiet
    exact hp.clear hpr hsu (hq.clear hqr hut hc)
  stops {e s} hs := (bind_eq (hp.stops hs) q).trans (hq.stops hs)

/-- Two token lists that go on alike. -/
def noFork : Fork where
  left := [⟨.semicolon, [], [], ⟨0, 0⟩⟩]
  right := [⟨.semicolon, [], [], ⟨0, 0⟩⟩]
  ender_left := rfl
  ender_right := rfl

/-- That the operand is kept is a part of what two runs agree on. -/
theorem tail_of_agree {p : Expr → Parser Expr}
    (h : ∀ e, Agree noFork (e.clear = true) 0 0 (p e) (p e))
    (hstops : ∀ {e s}, s.current.kind = .semicolon → p e s = some (e, s)) : Tail p where
  moves e s a t hr := (h e s a t hr).1
  clear hr hq hc := ((h _ _ _ _ hr).2 hq).2.1 hc
  stops := hstops

theorem tail_postfixOps (depth : Nat) : Tail (postfixOps (grammar depth)) :=
  tail_of_agree (fun _ => agree_postfixOps (agrees_grammar depth depth) (.refl _))
    fun hs => postfixOps_done (hs ▸ rfl) _ _

theorem tail_binaryRest (depth level : Nat) : Tail (binaryRest (grammar depth) level) :=
  tail_of_agree (fun _ => agree_binaryRest (agrees_grammar depth depth) level (.refl _))
    fun hs => binaryRest_done (hs ▸ rfl) (by rw [hs]; decide)

theorem tail_assignRest (depth : Nat) : Tail (assignRest (grammar depth)) :=
  tail_of_agree (fun _ => agree_assignRest (agrees_grammar depth depth) (.refl _))
    fun hs => by rw [assignRest, currentKind_bind, hs]; rfl

/-- A range behind its first end, or that end alone. -/
def rangeRest (g : Grammar) (left : Expr) : Parser Expr := do
  match ← rangeMark with
  | some inclusive => do
    let _ ← advance
    let last ← optionalExpr (precedence g BinaryOp.lowest)
    return .range (some left) last inclusive left.pos
  | none => return left

theorem range_eq_rangeRest (hs : rangeMark s = some (none, s)) :
    range g s = (precedence g BinaryOp.lowest >>= rangeRest g) s := by
  rw [range, bind_eq hs]
  rfl

theorem tail_rangeRest (depth : Nat) : Tail (rangeRest (grammar depth)) := by
  refine tail_of_agree (fun e => ?_) fun hs => ?_
  · have hg : Agrees noFork _ _ := agrees_grammar depth depth
    refine .bind agree_rangeMark fun m m' hm => ?_
    obtain rfl : m = m' := hm
    cases m with
    | some inclusive =>
      refine .advance fun _ _ _ _ _ =>
        .bind (agree_optionalExpr (agree_precedence hg _)) fun l l' hl => .pure ?_ fun h => ?_
      · simp_all [Same, Result.bare, Expr.bare]
      · simp_all [Result.clear, Expr.clear, clearExpr?]
    | none => exact .pure rfl fun h => ⟨h, rfl⟩
  · rw [rangeRest, bind_eq (rangeMark_none (by rw [hs]; decide) (by rw [hs]; decide))]
    rfl

/-! ## The written-out form -/

/-- Behind the first element of a group stands its end, or a comma. -/
theorem parenOrTuple_eq_some (hs : s.ahead = x :: rest) (hx : x.kind = .parenOpen)
    (hrest : (rest.headD beyond).kind ≠ .parenClose)
    (h : parenOrTuple (grammar depth) s = some (e, t)) (hq : t.bag = s.bag) :
    ∃ v u, (grammar depth).expression
        { s with ahead := rest, previous := x.kind, noStruct := false } = some (v, u) ∧
      u.bag = s.bag ∧ (u.current.kind = .parenClose ∨ u.current.kind = .comma) ∧
      (e.clear = true → v.clear = true) ∧
      ∀ c more, u.ahead = c :: more → c.kind = .parenClose →
        e = .paren v x.pos ∧ t.ahead = more := by
  obtain ⟨t, hinner, rfl⟩ := withNoStruct_eq_some h
  have hclose : accept .parenClose { s with ahead := rest, previous := x.kind, noStruct := false } =
      some (false, _) := accept_refused hrest
  rw [bind_eq (expect_cons (s := { s with noStruct := false }) hs hx), bind_eq hclose] at hinner
  obtain ⟨v, u, hv, hinner⟩ := bind_eq_some
    (show ((grammar depth).expression >>= _) _ = _ from hinner)
  have hsu := (movesOn_grammar depth).expression _ _ _ hv
  by_cases hend : u.current.kind = .parenClose
  · -- The group ends behind its first element.
    cases hu : u.ahead with
    | nil =>
      rw [State.current, hu] at hend
      cases hend
    | cons c more =>
      rw [State.current_of_ahead hu] at hend
      rw [bind_eq (accept_eq hu hend)] at hinner
      cases hinner
      refine ⟨v, u, hv, hq, .inl (State.current_of_ahead hu ▸ hend), id, fun c' more' hu' _ => ?_⟩
      rw [hu] at hu'
      cases hu'
      exact ⟨rfl, rfl⟩
  · rw [bind_eq (accept_refused hend)] at hinner
    obtain ⟨others, w, hothers, hinner⟩ := bind_eq_some
      (show (moreElements (grammar depth) .parenClose >>= _) u = _ from hinner)
    obtain ⟨c, w', hexpect, hinner⟩ := bind_eq_some hinner
    cases hinner
    have huw : Moved u w :=
      moves_of_runs (fun _ _ => reads_moreElements (sound_zero depth) .parenClose) _ _ _ hothers
    have hww := moves_expect _ _ _ _ hexpect
    obtain ⟨hquiet, hrun⟩ := hsu.quiet (huw.trans hww) hq
    refine ⟨v, u, hv, hquiet, .inr ?_, fun hc => ?_, fun c more hu hc => ?_⟩
    · -- Without a comma the end of the group is missing.
      refine Classical.byContradiction fun hcomma => ?_
      have hnone : moreElements (grammar depth) .parenClose u = some ([], u) :=
        loop_done (bind_eq (accept_refused hcomma) _)
      rw [hnone] at hothers
      cases hothers
      rw [expect_of_other hend] at hexpect
      cases hexpect
      exact absurd hrun (u.report_bag_ne _ _)
    · simp only [Expr.clear, clearExprs, Bool.and_eq_true] at hc
      exact hc.1
    · rw [State.current_of_ahead hu] at hend
      exact absurd hc hend

/-- An operator and its right operand are taken before anything else. -/
theorem binaryRest_eq_some {op : BinaryOp} {level : Nat} {l : Expr}
    (hs : s.ahead = x :: rest) (hx : x.kind = op.kind) (hlevel : level ≤ op.level)
    (h : binaryRest g level l s = some (e, t)) : ∃ right u,
      g.precedence (op.level + 1) { s with ahead := rest, previous := x.kind } = some (right, u) ∧
      binaryRest g level (.binary op l right l.pos) u = some (e, t) := by
  obtain ⟨r, u, hround, hrest⟩ := loop_eq_some h
  rw [currentKind_bind, State.current_of_ahead hs, hx, ofKind?_kind] at hround
  change (if level ≤ op.level then _ else _ : Parser (Step Expr Expr)) s = _ at hround
  rw [if_pos hlevel, bind_eq (advance_cons hs)] at hround
  obtain ⟨right, u, hright, hround⟩ := bind_eq_some hround
  cases hround
  exact ⟨right, u, hright, hrest.2⟩

/-- The value is read up to the operator, the group, and what follows it. -/
theorem expression_group {o p : Token} {op : BinaryOp} (hs : s.ahead = x :: o :: p :: rest)
    (hx : x.kind = .ident) (ho : o.kind = op.kind) (hp : p.kind = .parenOpen)
    (h : expression (grammar depth) s = some (e, t)) : ∃ d group u right w,
      parenOrTuple (grammar d) { s with ahead := p :: rest, previous := o.kind } = some (group, u) ∧
      (postfixOps (grammar d) group >>= binaryRest (grammar d) (op.level + 1)) u = some (right, w) ∧
      ((binaryRest (grammar depth) BinaryOp.lowest (.binary op (.path [x.literal] x.pos) right x.pos)
        >>= rangeRest (grammar depth)) >>= assignRest (grammar depth)) w = some (e, t) := by
  have hoperator : Stops op.level o := .of_operator ho (Nat.le_refl _)
  have hmark : rangeMark s = some (none, s) := by
    apply rangeMark_none <;> rw [State.current_of_ahead hs, hx] <;> decide
  obtain ⟨r, u₁, hrange, hassign⟩ := bind_eq_some h
  rw [range_eq_rangeRest hmark] at hrange
  obtain ⟨l, u₂, hprecedence, hrange⟩ := bind_eq_some hrange
  rw [precedence, bind_eq (unary_name hs hx hoperator.endsOperand _)] at hprecedence
  obtain ⟨right, w, hright, hprecedence⟩ :=
    binaryRest_eq_some (s := { s with ahead := o :: p :: rest, previous := x.kind }) rfl ho
      (lowest_le_level op) hprecedence
  cases depth with
  | zero => cases hright
  | succ d =>
    have hright : precedence (grammar d) (op.level + 1)
      { s with ahead := p :: rest, previous := o.kind } = some (right, w) := hright
    obtain ⟨operand, u₃, hunary, hright⟩ := bind_eq_some hright
    rw [unary_primary (show _ = p :: rest from rfl) (.inr (.inr hp))] at hunary
    obtain ⟨group, u, hprimary, hpostfix⟩ := bind_eq_some hunary
    rw [primary_group (show _ = p :: rest from rfl) hp] at hprimary
    exact ⟨d, group, u, right, w, hprimary, (bind_eq hpostfix _).trans hright,
      (bind_eq ((bind_eq hprecedence _).trans hrange) _).trans hassign⟩

/-- Written out, the value is what stands in front of the end of the group. -/
theorem long_assignment {a z o p : Token} {op : BinaryOp}
    (hs : s.ahead = x :: a :: z :: o :: p :: rest) (hx : x.kind = .ident) (ha : a.kind = .assign)
    (hz : z.kind = .ident) (ho : o.kind = op.kind) (hp : p.kind = .parenOpen)
    (hrest : (rest.headD beyond).kind ≠ .parenClose)
    (h : stmt (grammar depth) s = some (some (.expr e true), t)) (hq : t.bag = s.bag) :
    ∃ d v u, (grammar d).expression
        { s with ahead := rest, previous := p.kind, noStruct := false } = some (v, u) ∧
      u.bag = s.bag ∧ (u.current.kind = .parenClose ∨ u.current.kind = .comma) ∧
      (e.clear = true → v.clear = true) ∧
      ∀ c semi more, u.ahead = c :: semi :: more → c.kind = .parenClose → semi.kind = .semicolon →
        e = .assign (.path [x.literal] x.pos)
          (.binary op (.path [z.literal] z.pos) (.paren v p.pos) z.pos) x.pos := by
  have hassigns : assigns a.kind = true := ha ▸ rfl
  rw [stmt_assignment hs hx hassigns] at h
  obtain ⟨e', u₁, hexpression, hfinish⟩ := bind_eq_some h
  have hfinish := map_some_eq_some hfinish
  rcases depth with - | - | depth
  · cases hexpression
  · change expression (grammar 0) s = _ at hexpression
    rw [expression_assign hs hx ha] at hexpression
    cases hexpression
  change expression (grammar (depth + 1)) s = _ at hexpression
  rw [expression_assign hs hx ha] at hexpression
  obtain ⟨value, u₁, hvalue, hexpression⟩ := bind_eq_some hexpression
  cases hexpression
  change expression (grammar depth) _ = _ at hvalue
  obtain ⟨d, group, u₂, right, u₃, hgroup, hright, hvalue⟩ := expression_group rfl hz ho hp hvalue
  have htail := (tail_postfixOps d).comp (tail_binaryRest d (op.level + 1))
  have hlast := ((tail_binaryRest depth BinaryOp.lowest).comp (tail_rangeRest depth)).comp
    (tail_assignRest depth)
  -- Every part of the run is quiet.
  have hm := ((reads_parenOrTuple (n := 0) (sound_zero d) hp _ rfl (List.suffix_refl _)).2
    _ _ hgroup).moved
  have hm₁ := htail.moves _ _ _ _ hright
  have hm₂ := hlast.moves _ _ _ _ hvalue
  have hm₃ := moves_finishStmt _ _ _ _ hfinish
  obtain ⟨hq₁, hq⟩ := hm.quiet (hm₁.trans (hm₂.trans hm₃)) hq
  obtain ⟨hq₂, hq⟩ := hm₁.quiet (hm₂.trans hm₃) hq
  obtain ⟨hq₃, hq⟩ := hm₂.quiet hm₃ hq
  obtain ⟨-, rfl⟩ := finishStmt_semicolon rfl hfinish hq
  obtain ⟨v, u, hv, hqv, hkind, hclear, hclosed⟩ := parenOrTuple_eq_some rfl hp hrest hgroup hq₁
  refine ⟨d, v, u, hv, hqv, hkind, fun hc => hclear ?_, fun c semi more hu hc hsemi => ?_⟩
  · simp only [Expr.clear, Bool.and_eq_true] at hc
    have hbinary := hlast.clear hvalue hq₃ hc.2
    simp only [Expr.clear, Bool.and_eq_true] at hbinary
    exact htail.clear hright hq₂ hbinary.2
  · obtain ⟨rfl, hu₂⟩ := hclosed c _ hu hc
    rw [← State.current_of_ahead hu₂] at hsemi
    rw [htail.stops hsemi] at hright
    cases hright
    rw [hlast.stops hsemi] at hvalue
    cases hvalue
    rfl

/-! ## The value -/

/-- No expression starts with the end of one. -/
theorem expression_at_end (hs : s.current.kind = .semicolon ∨ s.current.kind = .parenClose)
    (h : (grammar depth).expression s = some (e, t)) : t.bag ≠ s.bag := by
  intro hq
  cases depth with
  | zero => cases h
  | succ depth =>
    have hg : Sound 0 s.ahead (grammar depth) := sound_zero depth
    have hprimary : Reads 0 s.ahead s.current (primary (grammar depth)) (fun _ => False) := by
      refine .onCurrent ?_
      rcases hs with hs | hs <;> rw [hs] <;> exact reads_takeReported (.inl rfl)
    have hunary : Reads 0 s.ahead s.current (unary (grammar depth)) (fun _ => False) := by
      refine .onCurrent ?_
      have hoperand : Reads 0 s.ahead s.current
          (primary (grammar depth) >>= postfixOps (grammar depth)) (fun _ => False) :=
        hprimary.bind fun e _ => (reads_postfixOps hg e).mono fun _ _ hf => hf
      rcases hs with hs | hs <;> rw [hs] <;> exact hoperand
    have hprecedence : Reads 0 s.ahead s.current (precedence (grammar depth) BinaryOp.lowest)
        (fun _ => False) :=
      hunary.bind fun e _ => (reads_binaryRest hg _ e).mono fun _ _ hf => hf
    have hmark : rangeMark s = some (none, s) := by
      apply rangeMark_none <;> rcases hs with hs | hs <;> rw [hs] <;> decide
    obtain ⟨r, u, hrange, hassign⟩ := bind_eq_some h
    rw [range_eq_rangeRest hmark] at hrange
    obtain ⟨l, w, hread, hrest⟩ := bind_eq_some hrange
    obtain ⟨hm, -, -, hloud⟩ := (hprecedence s rfl (List.suffix_refl _)).2 l w hread
    have htail := ((tail_rangeRest depth).comp (tail_assignRest depth)).moves l w e t
      ((bind_eq hrest _).trans hassign)
    exact hloud (hm.quiet htail hq).1

/-- Two values with the same words, one of which was read to the end `A` or to an end of its
own before that: they are the same, and the other was read as far. -/
theorem values_agree {E F A B : List Token} {d d' : Nat} {b : Expr} {w : State}
    (hwords : E.map Token.word = F.map Token.word) (hs : s.ahead = E ++ A) (ht : t.ahead = F ++ B)
    (hB : ender (B.headD beyond).kind = true) (hflag : s.noStruct = t.noStruct)
    (hprevious : s.previous = .braceClose ↔ t.previous = .braceClose)
    (hv : (grammar d).expression s = some (v, u)) (hq : u.bag = s.bag) (hclear : v.clear = true)
    (hu : ender u.current.kind = true) (hA : ∀ a ∈ A.tail, a.kind ≠ u.current.kind)
    (hb : (grammar d').expression t = some (b, w)) :
    v.bare = b.bare ∧ (u.ahead = A ∧ w.ahead = B ∨ w.current.kind = u.current.kind) := by
  -- The first run ends at `A`, or inside the value.
  obtain ⟨E₁, E₂, rfl, hleft⟩ : ∃ E₁ E₂, E = E₁ ++ E₂ ∧ u.ahead = E₂ ++ A := by
    obtain ⟨taken, htaken⟩ := ((movesOn_grammar d).expression s v u hv).ahead
    rw [hs] at htaken
    rcases List.append_eq_append_iff.mp htaken with ⟨E₂, hE, hu⟩ | ⟨C, hC, hA'⟩
    · exact ⟨taken, E₂, hE, hu⟩
    · rcases C with - | ⟨c, C⟩
      · exact ⟨E, [], by simp, hA'.symm⟩
      · cases hlist : u.ahead with
        | nil =>
          rw [State.current, hlist] at hu
          cases hu
        | cons a more =>
          refine absurd (congrArg Token.kind (State.current_of_ahead hlist)).symm (hA a ?_)
          rw [hA', hlist]
          simp
  obtain ⟨F₁, F₂, rfl, hw₁, hw₂⟩ := List.map_eq_append_iff.mp (hwords.symm.trans List.map_append)
  have hcurrent : u.current = (E₂ ++ A).headD beyond := by rw [State.current, hleft]
  -- There the second run is at the same word, or at its own end.
  have hright : E₂ = [] ∧ F₂ = [] ∨ ((F₂ ++ B).headD beyond).kind = u.current.kind := by
    rcases E₂ with - | ⟨a, E₂⟩ <;> rcases F₂ with - | ⟨c, F₂⟩
    · exact .inl ⟨rfl, rfl⟩
    · cases hw₂
    · cases hw₂
    · simp only [List.map_cons, List.cons.injEq] at hw₂
      rw [hcurrent]
      exact .inr (congrArg Prod.fst hw₂.1)
  let fork : Fork := {
    left := E₂ ++ A
    right := F₂ ++ B
    ender_left := hcurrent ▸ hu
    ender_right := by
      rcases hright with ⟨-, rfl⟩ | hkind
      · exact hB
      · rw [hkind]
        exact hu }
  have hstart : Alike fork s t :=
    ⟨⟨E₁, F₁, by rw [hs, List.append_assoc], by rw [ht, List.append_assoc], hw₁.symm⟩, hflag,
      hprevious⟩
  obtain ⟨-, -, hagree⟩ :=
    (((agrees_grammar d d').expression (n := 0) : Agree fork True 0 0 _ _) s v u hv).2 hq
  have hroom : fork.left.length + 0 ≤ u.ahead.length := Nat.le_of_eq (by rw [hleft]; rfl)
  obtain ⟨-, hsame, hend⟩ := hagree hroom hclear t b w hstart hb
  obtain ⟨X, Y, hX, hY, hXY⟩ := hend.ahead
  obtain rfl : X = [] := by
    rw [hleft] at hX
    exact List.append_left_eq_self.mp hX.symm
  obtain rfl : Y = [] := by simpa using hXY.symm
  refine ⟨hsame, ?_⟩
  rcases hright with ⟨rfl, rfl⟩ | hkind
  · exact .inl ⟨hleft, hY⟩
  · right
    rw [State.current, hY]
    exact hkind

end RustLua.Parser
