import RustLua.Proofs.Parser.DelimiterRules

/-! # Which tokens the productions read: types, paths and patterns

One statement for each production, under the assumption that the grammar it calls
reads what it should. -/
namespace RustLua.Parser

open RustLua.Tree

variable {α : Type} {g : Grammar} {r : Region} {R : List Token → Prop} {t : Token}

def isLiteral : Expr → Bool
  | .lit _ => true
  | _ => false

/-- Nothing but code, or nothing at all at the end of a block or a file. -/
def Stopped (R : List Token → Prop) (x : List Token) : Prop :=
  Past .code R x ∨
    ((x.headD beyond).kind = .eof ∨ (x.headD beyond).kind = .braceClose) ∧ Before .code R x

/-- A grammar whose entry points read code, patterns and types. -/
structure ReadsRegions (g : Grammar) : Prop where
  expression : SpansPast .code g.expression
  precedence : ∀ level, SpansPast .code (g.precedence level)
  unary : SpansPast .code g.unary
  primary : SpansPast .code g.primary
  literal : ∀ R, Leads (Before .pattern R) g.primary
    (fun e x => isLiteral e = true ∧ Before .pattern R x)
  ifElse : SpansPast .code g.ifElse
  block : SpansPast .code g.block
  item : ∀ R, Leads (Stopped R) g.item (fun _ => Before .code R)
  pattern : Spans .pattern g.pattern
  skipType : Spans .type g.skipType

/-! ## Types -/

theorem before_group {k : Token.Kind} (hk : r.skips k = true) (run x : List Token)
    (hg : Group k run x) (h : Before r R x) : Before r R (run ++ x) :=
  (past_group hk hg h).before

/-- What may follow `::` in a type is a part of it like all else. -/
theorem leadsAt_typeAngles {f : Unit → Parser α} {Q : α → List Token → Prop}
    (hk : t.kind = .less) (hf : Leads (Before .type R) (f ()) Q) :
    LeadsAt t (Before .type R) (skipAngles >>= f) Q :=
  (leadsAt_skipAngles hk fun _ _ hg h => before_generics hg h).bind fun _ => hf

theorem leadsAt_typeGroup {f : Unit → Parser α} {Q : α → List Token → Prop}
    (hk : Region.type.skips t.kind = true) (hf : Leads (Before .type R) (f ()) Q) :
    LeadsAt t (Before .type R) (skipBalanced >>= f) Q := by
  have ho : opens t.kind = true := by
    simp only [Region.skips, Bool.or_eq_true, decide_eq_true_eq] at hk
    rcases hk with hk | hk <;> rw [hk] <;> rfl
  exact (leadsAt_skipBalanced ho (before_group hk)).bind fun _ => hf

theorem spans_skipTypePath (hg : ReadsRegions g) : Spans .type (skipTypePath g) := by
  intro R
  refine .maybe (by decide) (before_token rfl) fun _ => leads_loop fun _ => .onKind fun t => ?_
  refine .ite (fun hs => ?_) fun _ => ?_
  · have hk : Region.type.reads t.kind = true := by
      unfold startsSegment at hs
      split at hs <;> simp_all [Region.reads]
    refine .take (ne_eof_of_startsSegment hs) (fun x h => before_token hk t x rfl h) ?_
    refine .onKind fun t => ?_
    extract_lets rest
    have hrest : Leads (Before .type R) (rest ()) (fun r l =>
        r.Meets (fun _ => Before .type R l) fun _ => Before .type R l) := by
      refine .ifAccept (by decide) (before_token rfl) ?_ (.pure fun _ h => h)
      refine .onCheck (fun t ht => ?_) (.pure fun _ h => h)
      refine leadsAt_typeAngles ht ?_
      exact .ifAccept (by decide) (before_token rfl) (.pure fun _ h => h) (.pure fun _ h => h)
    split
    · exact leadsAt_typeAngles ‹_› hrest
    · refine leadsAt_typeGroup (by simp [Region.skips, *]) ?_
      exact .ifAccept (by decide) (before_token rfl) ((hg.skipType R).bind fun _ => hrest) hrest
    · exact hrest.at t
  · refine Leads.at ?_ t
    exact .onCurrent fun _ => leads_report_pure.at _

theorem spans_skipBounds (hg : ReadsRegions g) : Spans .type (skipBounds g) := by
  intro R
  refine leads_loop fun _ => .maybe (by decide) (before_token rfl) fun _ => ?_
  have hrest : Leads (Before .type R) (do if ← accept .plus then return .more () else return .done ())
      (fun (r : Step Unit Unit) l =>
        r.Meets (fun _ => Before .type R l) fun _ => Before .type R l) :=
    .ifAccept (by decide) (before_token rfl) (.pure fun _ h => h) (.pure fun _ h => h)
  exact .ifAccept (by decide) (before_token rfl) hrest
    ((spans_skipTypePath hg R).bind fun _ => hrest)

theorem spans_skipFnQualifiers : Spans .type skipFnQualifiers := by
  intro R
  refine leads_loop fun _ => .onKind fun t => ?_
  split
  case h_4 => exact .pure fun _ h => h
  all_goals
    rename_i hk
    exact .take (by rw [hk]; decide) (fun x h => before_token rfl t x hk h) (.pure fun _ h => h)

theorem spans_skipType (hg : ReadsRegions g) : Spans .type (skipType g) := by
  intro R
  refine .onCurrent fun t => ?_
  -- what is taken without looking further
  have htake {k : Token.Kind} (hk : t.kind = k) (hr : Region.type.reads k = true)
      (x : List Token) (h : Before .type R x) : Before .type R (t :: x) := before_token hr t x hk h
  split
  case h_1 hk | h_2 hk =>
    refine .take (by rw [hk]; decide) (htake hk rfl) ?_
    refine .maybe (by decide) (before_token rfl) fun _ => ?_
    exact .maybe (by decide) (before_token rfl) fun _ => hg.skipType R
  case h_3 hk =>
    refine .take (by rw [hk]; decide) (htake hk rfl) ?_
    refine .ifAccept (by decide) (before_token rfl) (hg.skipType R) ?_
    exact .expect (by decide) (before_token rfl) fun _ => hg.skipType R
  case h_4 hk | h_5 hk =>
    exact leadsAt_skipBalanced (by rw [hk]; rfl) (before_group (by rw [hk]; rfl))
  case h_6 hk | h_7 hk =>
    exact .take (by rw [hk]; decide) (htake hk rfl) (.pure fun _ h => h)
  case h_8 | h_9 | h_10 =>
    refine Leads.at ((spans_skipFnQualifiers R).bind fun _ => ?_) t
    refine .expect (by decide) (before_token rfl) fun _ => ?_
    have hrest : Leads (Before .type R) (do if ← accept .arrow then g.skipType)
        (fun _ => Before .type R) :=
      .ifAccept (by decide) (before_token rfl) (hg.skipType R) (.pure fun _ h => h)
    exact .onCheck (fun t ht => leadsAt_typeGroup (by rw [ht]; rfl) hrest) hrest
  case h_11 hk => exact .take (by rw [hk]; decide) (htake hk rfl) (spans_skipBounds hg R)
  case h_12 hk =>
    refine leadsAt_typeAngles hk ?_
    exact .ifAccept (by decide) (before_token rfl) (spans_skipTypePath hg R) (.pure fun _ h => h)
  case h_13 hk =>
    refine .ite (fun _ => ?_) fun _ => (spans_skipTypePath hg R).at t
    exact .take (by rw [hk]; decide) (htake hk rfl) (spans_skipBounds hg R)
  case h_19 => exact leads_report.at t
  all_goals exact (spans_skipTypePath hg R).at t

theorem spans_typeText (hg : ReadsRegions g) : Spans .type (typeText g) := by
  intro R
  refine .onCurrent fun t => Leads.at ?_ t
  exact (leads_textOf (hg.skipType R)).bind fun _ => .pure fun _ h => h

/-! ## Paths -/

theorem before_sep {r : Region} (hk : r.reads .pathSep = true) (t : Token) (x : List Token)
    (ht : t.kind = .pathSep) (h : AfterSep r R x) : Before r R (t :: x) :=
  (past_sep hk t x ht h).before

theorem leads_pathRound (segments : List Bytes) :
    Leads (Past .path R) (pathRound segments) (fun r l =>
      r.Meets (fun _ => Before .path R l) fun _ => Before .path R l) := by
  refine .onCurrent fun t => .ite (fun hs => ?_) fun _ => leads_report_pure.at t
  refine .take (ne_eof_of_startsSegment hs)
    (fun x h => past_token (by simp [Region.reads, hs]) t x rfl h) ?_
  refine .ifAccept (by decide) (before_sep rfl) ?_ (.pure fun _ h => h)
  refine .onCheck (fun t ht => ?_) (.pure fun _ h => .inl h)
  refine (leadsAt_skipAngles ht fun run x hg h => .inr ⟨run, x, rfl, hg, h⟩).bind fun _ => ?_
  exact .ifAccept (by decide) (before_token rfl) (.pure fun _ h => h) (.pure fun _ h => h)

theorem spansPast_path : SpansPast .path path := by
  intro R
  refine .maybePast (by decide) rfl fun _ => leads_loop_first (leads_pathRound []) fun acc => ?_
  exact (leads_pathRound acc).pre fun _ => Past.before

/-! ## Patterns -/

theorem spans_patternLiteral (hg : ReadsRegions g) : Spans .pattern (patternLiteral g) := by
  intro R
  refine .onCurrent fun t => Leads.at ?_ t
  refine .maybe (by decide) (before_token rfl) fun _ => (hg.literal R).bind fun e => ?_
  split
  · exact .pure fun _ h => ⟨rfl, h⟩
  · exact .loud ((loud_reportAt _ _).next fun _ => .pure _)

theorem spans_finishBinding (hg : ReadsRegions g) (p : Pattern) :
    Spans .pattern (finishBinding g p) := by
  intro R
  refine .ifAccept (by decide) (before_token rfl) ?_ (.pure fun _ h => h)
  exact (hg.pattern R).bind fun _ => .pure fun _ h => h

theorem spans_topPattern (hg : ReadsRegions g) : Spans .pattern (topPattern g) := by
  intro R
  refine .maybe (by decide) (before_token rfl) fun _ => (hg.pattern R).bind fun first => ?_
  refine .onCheck (fun t _ => Leads.at ?_ t) (.pure fun _ h => h)
  refine (leads_loop fun acc => ?_).bind fun _ => .pure fun _ h => h
  refine .ifAccept (by decide) (before_token rfl) ?_ (.pure fun _ h => h)
  exact (hg.pattern R).bind fun _ => .pure fun _ h => h

theorem spans_patternElements (hg : ReadsRegions g) (closer : Token.Kind) :
    Spans .pattern (patternElements g closer) := by
  intro R
  refine leads_loop fun acc => .unlessClosed (.pure fun _ h => h) fun t _ _ => Leads.at ?_ t
  refine (spans_topPattern hg R).bind fun p => ?_
  exact .ifAccept (by decide) (before_token rfl) (.pure fun _ h => h) (.pure fun _ h => h)

theorem leadsAt_tuplePattern (hg : ReadsRegions g)
    (hk : t.kind = .parenOpen ∨ t.kind = .bracketOpen) :
    LeadsAt t (Before .pattern R) (tuplePattern g) (fun _ => Before .pattern R) := by
  have hnests : Region.pattern.nests t.kind = true := by
    rcases hk with hk | hk <;> rw [hk] <;> rfl
  refine .take (ne_eof_of_opens (Region.opens_of_nests hnests))
    (fun x h => (past_open hnests t x rfl h).before) ?_
  extract_lets closer
  have hcloser : closer = closerOf t.kind := by
    rcases hk with hk | hk <;> simp [closer, hk, closerOf]
  clear_value closer
  subst hcloser
  refine (spans_patternElements hg _ _).bind fun r => ?_
  refine .expect (closerOf_ne_eof _) closing_here fun _ => ?_
  split <;> exact .pure fun _ h => h

theorem spans_pathPattern (hg : ReadsRegions g) : Spans .pattern (pathPattern g) := by
  intro R
  refine .onCurrent fun t => Leads.at ?_ t
  refine (spansPast_path.spans.lift (.inl ⟨rfl, by decide⟩) R).bind fun segments => ?_
  refine .onKind fun t => ?_
  split
  · rename_i hk
    refine .take (by rw [hk]; decide) (fun x h => (past_open rfl t x hk h).before) ?_
    refine (spans_commaList rfl (spans_topPattern hg) _).bind fun _ => ?_
    exact .expect (by decide) closing_here fun _ => .pure fun _ h => h
  · rename_i hk
    refine (leadsAt_skipBalanced (by rw [hk]; rfl) (before_group (by rw [hk]; rfl))).bind fun _ => ?_
    exact .pure fun _ h => h
  · refine Leads.at ?_ t
    split
    · exact .ite (fun _ => spans_finishBinding hg _ R) fun _ => .pure fun _ h => h
    · exact .pure fun _ h => h

theorem spans_pattern (hg : ReadsRegions g) : Spans .pattern (pattern g) := by
  intro R
  refine .onCurrent fun t => ?_
  have htake {k : Token.Kind} (hk : t.kind = k) (hr : Region.pattern.reads k = true)
      (x : List Token) (h : Before .pattern R x) : Before .pattern R (t :: x) :=
    before_token hr t x hk h
  split
  case h_1 hk | h_2 hk => exact .take (by rw [hk]; decide) (htake hk rfl) (.pure fun _ h => h)
  case h_3 hk =>
    refine .take (by rw [hk]; decide) (htake hk rfl) (.maybe (by decide) (before_token rfl) fun _ => ?_)
    exact .expect (by decide) (before_token rfl) fun _ => .pure fun _ h => h
  case h_4 hk =>
    refine .take (by rw [hk]; decide) (htake hk rfl) (.onCurrent fun name => ?_)
    refine .ite (fun hname => ?_) fun _ => leads_report_pure.at name
    have hreads : Region.pattern.reads name.kind = true := by
      rcases hname with hname | hname <;> rw [hname] <;> rfl
    have hne : name.kind ≠ .eof := by
      rcases hname with hname | hname <;> rw [hname] <;> decide
    exact .take hne (fun x h => before_token hreads name x rfl h) (spans_finishBinding hg _ R)
  case h_5 hk | h_6 hk =>
    refine .take (by rw [hk]; decide) (htake hk rfl) (.maybe (by decide) (before_token rfl) fun _ => ?_)
    exact (hg.pattern R).bind fun _ => .pure fun _ h => h
  case h_7 hk => exact leadsAt_tuplePattern hg (.inl hk)
  case h_8 hk => exact leadsAt_tuplePattern hg (.inr hk)
  case h_17 | h_18 | h_19 | h_20 | h_21 | h_22 => exact (spans_pathPattern hg R).at t
  case h_23 =>
    exact Leads.at (.loud ((loud_report _).next fun _ => moves_advance.bind fun _ => .pure _)) t
  all_goals
    refine Leads.at ((spans_patternLiteral hg R).bind fun l => ?_) t
    extract_lets rest
    have hrest (u : Unit) : Leads (Before .pattern R) (rest u) (fun _ => Before .pattern R) :=
      .pure fun _ h => h
    refine .onEither (fun t ht => ?_) (hrest ())
    have hreads : Region.pattern.reads t.kind = true := by
      rcases ht with ht | ht <;> rw [ht] <;> rfl
    have hne : t.kind ≠ .eof := by
      rcases ht with ht | ht <;> rw [ht] <;> decide
    refine .take hne (fun x h => before_token hreads t x rfl h) (.onKind fun t => Leads.at ?_ t)
    refine .ite (fun _ => ?_) fun _ => hrest ()
    exact (spans_patternLiteral hg R).bind fun _ => hrest ()

end RustLua.Parser
