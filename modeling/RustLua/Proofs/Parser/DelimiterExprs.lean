import RustLua.Proofs.Parser.DelimiterTrees

/-! # Which tokens the productions read: expressions

Every expression takes a token, and all of it is code. -/
namespace RustLua.Parser

open RustLua.Tree

variable {α : Type} {g : Grammar} {R : List Token → Prop} {t : Token} {x : List Token}
  {p : Parser Expr}

/-! ## Delimited expressions -/

theorem spans_condition (hg : ReadsRegions g) : Spans .code (condition g) :=
  hg.expression.spans.withNoStruct true

theorem spans_arguments (hg : ReadsRegions g) (closer : Token.Kind) :
    Spans .code (arguments g closer) :=
  (spans_commaList rfl hg.expression.spans).withNoStruct false

theorem spans_moreElements (hg : ReadsRegions g) (closer : Token.Kind) :
    Spans .code (moreElements g closer) := by
  intro R
  refine leads_loop fun acc => .ifAccept (by decide) (before_token rfl) ?_ (.pure fun _ h => h)
  refine .onCheck (fun t _ => .pure fun _ h => h) ?_
  exact (hg.expression.spans R).bind fun _ => .pure fun _ h => h

theorem spansPast_parenOrTuple (hg : ReadsRegions g) : SpansPast .code (parenOrTuple g) := by
  intro R
  refine Leads.withNoStruct (.expect (by decide) (past_open rfl) fun t => ?_) false
  refine .ifAccept (by decide) closing_here (.pure fun _ h => h) ?_
  refine (hg.expression.spans _).bind fun first => ?_
  refine .ifAccept (by decide) closing_here (.pure fun _ h => h) ?_
  refine (spans_moreElements hg _ _).bind fun _ => ?_
  exact .expect (by decide) closing_here fun _ => .pure fun _ h => h

theorem spansPast_array (hg : ReadsRegions g) : SpansPast .code (array g) := by
  intro R
  refine Leads.withNoStruct (.expect (by decide) (past_open rfl) fun t => ?_) false
  refine .ifAccept (by decide) closing_here (.pure fun _ h => h) ?_
  refine (hg.expression.spans _).bind fun first => ?_
  refine .ifAccept (by decide) (before_token rfl) ?_ ?_
  · refine (hg.expression.spans _).bind fun _ => ?_
    exact .expect (by decide) closing_here fun _ => .pure fun _ h => h
  · refine (spans_moreElements hg _ _).bind fun _ => ?_
    exact .expect (by decide) closing_here fun _ => .pure fun _ h => h

theorem spans_macroArguments (hg : ReadsRegions g) (closer : Token.Kind) :
    Spans .code (macroArguments g closer) := by
  intro R
  refine leads_loop fun acc => .unlessClosed (.pure fun _ h => h) fun t _ _ => Leads.at ?_ t
  refine (hg.expression.spans R).bind fun e => ?_
  refine .ifAccept (by decide) (before_token rfl) (.pure fun _ h => h) ?_
  exact .ifAccept (by decide) (before_token rfl) (.pure fun _ h => h) (.pure fun _ h => h)

/-- What stands behind the exclamation mark of a macro call: code in delimiters, or a group
that was skipped. -/
def MacroBody (R : List Token → Prop) (x : List Token) : Prop :=
  Past .code R x ∨ ∃ k, Skipped k (Before .code R) x

theorem leadsAt_macroGroup (hg : ReadsRegions g) (path : List Bytes) (pos : Pos)
    (ho : opens t.kind = true) :
    LeadsAt t (MacroBody R) (macroGroup g path pos) (fun _ => Before .code R) := by
  intro s e u hc hr
  obtain ⟨rest, hs⟩ := State.ahead_of_current hc (ne_eof_of_opens ho)
  obtain ⟨⟨opener, v⟩, hv, hr⟩ := Option.bind_eq_some_iff.mp (show (advance s).bind _ = _ from hr)
  obtain ⟨_, hsv, hbag⟩ := advance_eq_some hv
  rw [advance_cons hs] at hv
  cases hv
  obtain ⟨⟨args, stop⟩, hargs, hr⟩ := Option.bind_eq_some_iff.mp
    (show (macroArguments g (closerOf t.kind) _).bind _ = _ from hr)
  obtain ⟨hvs, hread⟩ := spans_macroArguments hg _
    (Closing (closerOf t.kind) (Before .code R)) _ _ _ hargs
  change (if stop.current.kind = closerOf t.kind ∧ stop.bag.count = s.bag.count then _
    else _ : Parser Expr) stop = _ at hr
  split at hr
  · rename_i hclosed
    have hclose : LeadsAt stop.current (Before .code (Closing (closerOf t.kind) (Before .code R)))
        (do let _ ← advance; return Expr.macroCall path args false pos) (fun _ => Before .code R) :=
      .take (hclosed.1 ▸ closerOf_ne_eof _) (fun x h => closing_here _ x hclosed.1 h)
        (.pure fun _ h => h)
    obtain ⟨hsu, hend⟩ := hclose stop e u rfl hr
    refine ⟨(hsv.trans hvs).trans hsu, fun hq hR => .inl ?_⟩
    obtain ⟨hq, hq'⟩ := (hsv.trans hvs).quiet hsu hq
    rw [hs]
    have hnests : Region.code.nests t.kind = true := ho
    exact past_open hnests t rest rfl (hread (hsv.quiet hvs hq).2 (hend hq' hR))
  · rw [(hsv.trans hvs).rewind_bind] at hr
    have hskip : LeadsAt t (MacroBody R) (do skipBalanced; return Expr.macroCall path [] true pos)
        (fun _ => Before .code R) :=
      ((leadsAt_skipped rfl ho).pre fun _ h => .inr ⟨_, h⟩).bind fun _ => .pure fun _ h => h
    exact hskip s e u hc hr

/-- What may stand behind a path: code, or the rest of a macro call. -/
def AfterPath (R : List Token → Prop) (x : List Token) : Prop :=
  Before .code R x ∨ ∃ bang y, x = bang :: y ∧ bang.kind = .bang ∧ MacroBody R y

theorem Stretch.reads_path {runs : List (List Token)} {p : Token} {y : List Token}
    (h : Stretch .path runs (p :: x) y) (hlength : y.length < (p :: x).length) :
    Region.path.reads p.kind = true := by
  generalize hx : p :: x = x' at h
  cases h with
  | done => exact absurd hlength (by rw [hx]; exact Nat.lt_irrefl _)
  | plain hk => cases hx; exact hk
  | nested ho => cases ho
  | group hk => cases hk
  | turbofish _ hk => cases hx; rw [hk]; rfl
  | attributed hr => rcases hr with hr | hr <;> cases hr

theorem past_of_path (h : Past .path (AfterPath R) x) : Past .code R x := by
  obtain ⟨runs, y, hs, hlength, hy⟩ := h
  rcases hy with hy | ⟨bang, z, rfl, hb, hz⟩
  · exact Past.lift (.inl ⟨rfl, by decide⟩) ⟨runs, y, hs, hlength, hy⟩
  rcases hz with hz | ⟨k, run, w, rfl, hgroup, runs', v, hs', hR⟩
  · refine Past.lift (.inl ⟨rfl, by decide⟩) ⟨runs, _, hs, hlength, ?_⟩
    exact before_token rfl bang z hb hz.before
  · cases x with
    | nil => cases hlength
    | cons p x =>
      have hcall : Stretch .code (runs ++ run :: runs') (p :: x) v :=
        .skippedMacro (hs.reads_path hlength) (show Stretch .path runs _ (bang ::
          ((none : Option Token).toList ++ (run ++ w))) from hs) hb (by simp) hgroup hs'
      refine ⟨_, v, hcall, ?_, hR⟩
      have hrest := hs'.length_le
      simp only [List.length_cons, List.length_append] at hlength ⊢
      omega

theorem spans_structFields (hg : ReadsRegions g) : Spans .code (structFields g) := by
  intro R
  refine leads_loop fun acc => .unlessClosed (.pure fun _ h => h) fun t _ _ => Leads.at ?_ t
  refine .ifAccept (by decide) (before_token rfl) ?_ ?_
  · exact (hg.expression.spans R).bind fun _ => .pure fun _ h => h
  refine .onCurrent fun name => .ite (fun hk => ?_) fun _ => leads_report_pure.at name
  have hreads : Region.code.reads name.kind = true ∧ name.kind ≠ .eof := by
    rcases hk with hk | hk <;> rw [hk] <;> decide
  refine .take hreads.2 (fun x h => before_token hreads.1 name x rfl h) ?_
  refine .accepted (by decide) (before_token rfl) ?_ ?_
  · refine (hg.expression.spans R).bind fun _ => ?_
    exact .ifAccept (by decide) (before_token rfl) (.pure fun _ h => h) (.pure fun _ h => h)
  · exact .ifAccept (by decide) (before_token rfl) (.pure fun _ h => h) (.pure fun _ h => h)

theorem spansPast_structLiteral (hg : ReadsRegions g) (path : List Bytes) (pos : Pos) :
    SpansPast .code (structLiteral g path pos) := by
  intro R
  refine Leads.withNoStruct (.expect (by decide) (past_open rfl) fun t => ?_) false
  refine (spans_structFields hg _).bind fun _ => ?_
  exact .expect (by decide) closing_here fun _ => .pure fun _ h => h

theorem spansPast_pathExpr (hg : ReadsRegions g) : SpansPast .code (pathExpr g) := by
  intro R
  refine .onCurrent fun t => Leads.at ?_ t
  refine ((spansPast_path (AfterPath R)).pre fun _ => past_of_path).bind fun segments => ?_
  refine .onPair (fun bang opener hb ho => ?_) ?_
  · refine LeadsPair.withNoStruct ?_ false
    have hcall (x : List Token) (h : MacroBody R x) : Before .path (AfterPath R) (bang :: x) :=
      .here (.inr ⟨bang, x, rfl, hb, h⟩)
    exact .expect hb (by decide) hcall (leadsAt_macroGroup hg _ _ ho)
  · refine .ignoreCheck fun _ => .onGet fun s => Leads.at (.ite (fun _ => ?_) fun _ => ?_) _
    · exact ((spansPast_structLiteral hg _ _).spans R).pre fun _ h => .here (.inl h)
    · exact .pure fun _ h => .here (.inl h)

/-! ## Control flow -/

theorem spansPast_ifElse (hg : ReadsRegions g) : SpansPast .code (ifElse g) := by
  intro R
  refine .expect (by decide) (past_token rfl) fun t => ?_
  refine (spans_condition hg R).bind fun cond => (hg.block.spans R).bind fun body => ?_
  refine .ifAccept (by decide) (before_token rfl) ?_ (.pure fun _ h => h)
  refine .onCheck (fun t _ => Leads.at ?_ t) (.onCurrent fun t => Leads.at ?_ t)
  · exact (hg.ifElse.spans R).bind fun _ => .pure fun _ h => h
  · exact (hg.block.spans R).bind fun _ => .pure fun _ h => h

theorem past_forLoop (ht : t.kind = .kwFor) (h : Before .pattern (Closing .kwIn (Before .code R)) x) :
    Past .code R (t :: x) := by
  obtain ⟨runs, y, hs, u, z, rfl, hu, runs', w, hs', hR⟩ := h
  have hlength := hs.length_le
  have hlength' := hs'.length_le
  refine ⟨_, w, .forLoop ht hs hu hs', ?_, hR⟩
  simp only [List.length_cons] at hlength ⊢
  omega

theorem spansPast_labelledLoop (hg : ReadsRegions g) (label : Bytes) :
    SpansPast .code (labelledLoop g label) := by
  intro R
  refine .onCurrent fun t => ?_
  split
  · rename_i hk
    refine .take (by rw [hk]; decide) (fun x h => past_token rfl t x hk h) ?_
    exact (spans_condition hg R).bind fun _ => (hg.block.spans R).bind fun _ => .pure fun _ h => h
  · rename_i hk
    refine .take (by rw [hk]; decide) (fun x h => past_token rfl t x hk h) ?_
    exact (hg.block.spans R).bind fun _ => .pure fun _ h => h
  · rename_i hk
    refine .take (by rw [hk]; decide) (fun x h => past_forLoop hk h) ?_
    refine (spans_topPattern hg _).bind fun p => .expect (by decide) closing_here fun _ => ?_
    exact (spans_condition hg R).bind fun _ => (hg.block.spans R).bind fun _ => .pure fun _ h => h
  · exact leads_report_pure.at t

theorem spansPast_blockExpr (hg : ReadsRegions g) (isUnsafe : Bool) (label : Bytes) (pos : Pos) :
    SpansPast .code (blockExpr g isUnsafe label pos) :=
  fun R => (hg.block R).bind fun _ => .pure fun _ h => h

/-- What stands behind the pattern of a match arm. -/
def AfterPattern (R : List Token → Prop) (x : List Token) : Prop :=
  Closing .fatArrow (Before .code R) x ∨
    Closing .kwIf (Before .code (Closing .fatArrow (Before .code R))) x

theorem before_arm (h : Before .pattern (AfterPattern R) x) : Before .code R x := by
  obtain ⟨runs, y, hs, ⟨t, z, rfl, ht, runs', w, hs', hR⟩ | ⟨t, z, rfl, ht, runs', y, hs', hz⟩⟩ := h
  · exact ⟨_, w, .arm hs ht hs', hR⟩
  · obtain ⟨u, z', rfl, hu, runs'', w, hs'', hR⟩ := hz
    exact ⟨_, w, .guardedArm hs ht hs' hu hs'', hR⟩

theorem past_attribute {r : Region} (hr : r = .code ∨ r = .declaration) (t : Token)
    (x : List Token) (ht : t.kind = .pound) (h : AfterPound (Before r R) x) :
    Past r R (t :: x) := by
  have hpast (bang : Option Token) {run y : List Token} (hb : ∀ b ∈ bang, b.kind = .bang)
      (hg : Group .bracketOpen run y) (hy : Before r R y) :
      Past r R (t :: (bang.toList ++ (run ++ y))) := by
    obtain ⟨runs, z, hs, hR⟩ := hy
    have hlength := hs.length_le
    refine ⟨_, z, .attributed hr ht hb hg hs, ?_, hR⟩
    simp only [List.length_cons, List.length_append]
    omega
  rcases h with ⟨run, y, rfl, hg, hy⟩ | ⟨b, z, rfl, hb, run, y, rfl, hg, hy⟩
  · exact hpast none (by simp) hg hy
  · exact hpast (some b) (by simpa using hb) hg hy

theorem spans_matchArms (hg : ReadsRegions g) : Spans .code (matchArms g) := by
  intro R
  refine leads_loop fun acc => .unlessClosed (.pure fun _ h => h) fun t _ _ => Leads.at ?_ t
  refine .onGet fun s => Leads.at ?_ _
  refine (leads_skipAttributes fun t x ht h =>
    (past_attribute (.inl rfl) t x ht h).before).bind fun _ => ?_
  refine ((spans_topPattern hg (AfterPattern R)).pre fun _ => before_arm).bind fun p => ?_
  have harrow (t : Token) (x : List Token) (ht : t.kind = .fatArrow) (h : Before .code R x) :
      Before .pattern (AfterPattern R) (t :: x) := .here (.inl ⟨t, x, rfl, ht, h⟩)
  have hguard (t : Token) (x : List Token) (ht : t.kind = .kwIf)
      (h : Before .code (Closing .fatArrow (Before .code R)) x) :
      Before .pattern (AfterPattern R) (t :: x) := .here (.inr ⟨t, x, rfl, ht, h⟩)
  extract_lets rest
  -- the body, with or without a guard in front of it
  have hrest {P : List Token → Prop} (guard : Option Expr)
      (hP : ∀ (t : Token) x, t.kind = .fatArrow → Before .code R x → P (t :: x)) :
      Leads P (rest guard) (fun r l => r.Meets (fun _ => Before .code R l)
        (fun _ => Before .code R l)) := by
    refine .expect (by decide) hP fun _ => .onCurrent fun t => Leads.at ?_ t
    extract_lets hasBlock tail
    have htail (body : Expr) : Leads (Before .code R) (tail body) (fun r l =>
        r.Meets (fun _ => Before .code R l) (fun _ => Before .code R l)) := by
      refine .maybe (by decide) (before_token rfl) fun _ => .ignoreCheck fun _ => ?_
      refine .ite (fun _ => .onCurrent fun t => leads_report_pure.at t) fun _ => ?_
      refine .onGet fun s => Leads.at (.ite (fun _ => ?_) fun _ => ?_) _
      · exact .pure fun _ h => h
      · exact .pure fun _ h => h
    refine .ite (fun _ => ?_) fun _ => ?_
    · exact ((spansPast_blockExpr hg _ _ _).spans R).bind htail
    · exact (hg.expression.spans R).bind htail
  refine .accepted (by decide) hguard ?_ (hrest none harrow)
  exact ((hg.expression.spans.map some) _).bind fun guard => hrest guard closing_here

theorem spansPast_matchOn (hg : ReadsRegions g) : SpansPast .code (matchOn g) := by
  intro R
  refine .expect (by decide) (past_token rfl) fun t => (spans_condition hg R).bind fun _ => ?_
  refine Leads.withNoStruct (.expect (by decide) (fun t x ht h =>
    (past_open rfl t x ht h).before) fun _ => ?_) false
  refine (spans_matchArms hg _).bind fun _ => ?_
  exact .expect (by decide) closing_here fun _ => .pure fun _ h => h

theorem spansPast_blockLike (hg : ReadsRegions g) : SpansPast .code (blockLike g) := by
  intro R
  refine .onCurrent fun t => ?_
  split
  case h_1 => exact (spansPast_ifElse hg R).at t
  case h_5 => exact (spansPast_matchOn hg R).at t
  case h_6 hk =>
    refine .take (by rw [hk]; decide) (fun x h => past_token rfl t x hk h) ?_
    exact (spansPast_blockExpr hg _ _ _).spans R
  case h_7 hk =>
    refine .take (by rw [hk]; decide) (fun x h => past_token rfl t x hk h) ?_
    refine .expect (by decide) (before_token rfl) fun _ => .onCheck (fun t _ => ?_) ?_
    · exact ((spansPast_blockExpr hg _ _ _).spans R).at t
    · exact (spansPast_labelledLoop hg _).spans R
  case h_8 => exact (spansPast_blockExpr hg _ _ _ R).at t
  all_goals exact (spansPast_labelledLoop hg _ R).at t

/-! ## Closures -/

theorem before_ascribed (t : Token) (x : List Token) (ht : t.kind = .colon)
    (h : Before .type (Before .declaration R) x) : Before .declaration R (t :: x) := by
  obtain ⟨runs, y, hs, runs', z, hs', hR⟩ := h
  exact ⟨_, z, .ascribed ht hs hs', hR⟩

/-- A type that may stand behind a colon. -/
theorem leads_annotated (hg : ReadsRegions g) {f : Option TypeText → Parser α}
    {Q : α → List Token → Prop} (hf : ∀ type, Leads (Before .declaration R) (f type) Q) :
    Leads (Before .declaration R)
      (accept .colon >>= fun b => if b then (some <$> typeText g) >>= f else f none) Q := by
  refine .ifAccept (by decide) before_ascribed ?_ (hf none)
  exact ((spans_typeText hg).map some _).bind fun type => (hf type).pre fun _ => .here

theorem spans_closureParam (hg : ReadsRegions g) : Spans .declaration (closureParam g) := by
  intro R
  refine .onCurrent fun t => Leads.at ?_ t
  refine (hg.pattern.lift (.inr ⟨rfl, rfl⟩) R).bind fun p => ?_
  exact leads_annotated hg fun _ => .pure fun _ h => h

theorem past_closure (t : Token) (x : List Token) (ht : t.kind = .pipe)
    (h : Before .declaration (Closing .pipe (Before .code R)) x) : Past .code R (t :: x) := by
  obtain ⟨runs, y, hs, u, z, rfl, hu, runs', w, hs', hR⟩ := h
  have hlength := hs.length_le
  have hlength' := hs'.length_le
  refine ⟨_, w, .closure ht hs hu hs', ?_, hR⟩
  simp only [List.length_cons] at hlength ⊢
  omega

theorem spansPast_closureParams (hg : ReadsRegions g) : SpansPast .code (closureParams g) := by
  intro R
  refine .ifAccept (by decide) (past_token rfl) (.pure fun _ h => h) ?_
  refine .expect (by decide) past_closure fun _ => ?_
  refine (spans_commaList rfl (spans_closureParam hg) _).bind fun _ => ?_
  exact .expect (by decide) closing_here fun _ => .pure fun _ h => h

theorem past_typed (ht : t.kind = .kwAs ∨ t.kind = .arrow ∨ t.kind = .kwImpl)
    (h : Before .type (Before .code R) x) : Past .code R (t :: x) := by
  obtain ⟨runs, y, hs, runs', z, hs', hR⟩ := h
  have hlength := hs.length_le
  have hlength' := hs'.length_le
  refine ⟨_, z, .typed ht hs hs', ?_, hR⟩
  simp only [List.length_cons]
  omega

theorem spansPast_closure (hg : ReadsRegions g) : SpansPast .code (closure g) := by
  intro R
  refine .onCurrent fun t => Leads.at (.maybePast (by decide) rfl fun isMove => ?_) t
  refine (spansPast_closureParams hg R).bind fun params => ?_
  refine .ifAccept (by decide) (fun t x ht h => (past_typed (.inr (.inl ht)) h).before) ?_ ?_
  · refine (spans_typeText hg _).bind fun _ => .onCurrent fun t => Leads.at ?_ t
    exact (((spansPast_blockExpr hg _ _ _).spans R).pre fun _ => Before.here).bind fun _ =>
      .pure fun _ h => h
  · exact (hg.expression.spans R).bind fun _ => .pure fun _ h => h

/-! ## Operands and operators -/

theorem looks_startsExpr : Looks startsExpr := by
  refine .onGet fun s => ?_
  split <;> exact .pure _

theorem spans_optionalExpr (hp : Spans .code p) :
    Spans .code (optionalExpr p) := by
  intro R
  refine .afterLook looks_startsExpr fun _ => .ite (fun _ => ?_) fun _ => .pure fun _ h => h
  exact hp.map some R

theorem spans_optionalLabel : Spans .code optionalLabel := by
  intro R
  refine .onCheck (fun t ht => ?_) (.pure fun _ h => h)
  exact .take (by rw [ht]; decide) (fun x h => before_token rfl t x ht h) (.pure fun _ h => h)

theorem past_declared (ht : t.kind = .kwLet ∨ t.kind = .kwConst ∨ t.kind = .kwStatic)
    (h : Before .declaration (Before .code R) x) : Past .code R (t :: x) := by
  obtain ⟨runs, y, hs, runs', z, hs', hR⟩ := h
  have hlength := hs.length_le
  have hlength' := hs'.length_le
  refine ⟨_, z, .declared ht hs hs', ?_, hR⟩
  simp only [List.length_cons]
  omega

theorem spansPast_primary (hg : ReadsRegions g) : SpansPast .code (primary g) := by
  intro R
  refine .onCurrent fun t => ?_
  have htake {k : Token.Kind} (hk : t.kind = k) (hr : Region.code.reads k = true)
      (x : List Token) (h : Before .code R x) : Past .code R (t :: x) := past_token hr t x hk h
  split
  case h_1 hk | h_2 hk | h_3 hk | h_4 hk | h_5 hk | h_6 hk | h_7 hk =>
    exact .take (by rw [hk]; decide) (htake hk rfl) (.pure fun _ h => h)
  case h_14 => exact (spansPast_parenOrTuple hg R).at t
  case h_15 => exact (spansPast_array hg R).at t
  case h_8 | h_9 | h_10 | h_11 | h_12 | h_13 => exact (spansPast_pathExpr hg R).at t
  case h_16 | h_17 | h_18 | h_19 | h_20 | h_21 | h_22 | h_23 => exact (spansPast_blockLike hg R).at t
  case h_24 | h_25 | h_26 => exact (spansPast_closure hg R).at t
  case h_27 hk =>
    refine .take (by rw [hk]; decide) (fun x h => past_declared (.inl hk) h) ?_
    refine ((spans_topPattern hg).lift (.inr ⟨rfl, rfl⟩) _).bind fun p => ?_
    refine .expect (by decide) (fun t x ht h => .here (before_token rfl t x ht h)) fun _ => ?_
    exact ((hg.precedence _).spans R).bind fun _ => .pure fun _ h => h
  case h_28 hk =>
    refine .take (by rw [hk]; decide) (htake hk rfl) ?_
    exact (spans_optionalExpr hg.expression.spans R).bind fun _ => .pure fun _ h => h
  case h_29 hk =>
    refine .take (by rw [hk]; decide) (htake hk rfl) ((spans_optionalLabel R).bind fun _ => ?_)
    exact (spans_optionalExpr hg.expression.spans R).bind fun _ => .pure fun _ h => h
  case h_30 hk =>
    refine .take (by rw [hk]; decide) (htake hk rfl) ?_
    exact (spans_optionalLabel R).bind fun _ => .pure fun _ h => h
  case h_31 =>
    exact Leads.at (.loud ((loud_report _).next fun _ => moves_advance.bind fun _ => .pure _)) t

theorem spans_member (hg : ReadsRegions g) (base : Expr) : Spans .code (member g base) := by
  intro R
  refine .onCurrent fun name => ?_
  split
  · rename_i hk
    refine .take (by rw [hk]; decide) (fun x h => before_token rfl name x hk h) ?_
    extract_lets rest
    have hrest (u : Unit) : Leads (Before .code R) (rest u) (fun _ => Before .code R) := by
      refine .ifAccept (by decide) (fun t x ht h => (past_open rfl t x ht h).before) ?_ ?_
      · refine (spans_arguments hg _ _).bind fun _ => ?_
        exact .expect (by decide) closing_here fun _ => .pure fun _ h => h
      · exact .pure fun _ h => h
    refine .onPair (fun t t' ht ht' => ?_) (hrest ())
    refine .take (by rw [ht]; decide) (fun x h => before_sep rfl t x ht h) ?_
    exact (leadsAt_skipAngles (of_decide_eq_true ht') fun run x hgenerics h =>
      .inr ⟨run, x, rfl, hgenerics, h⟩).bind fun _ => hrest ()
  · rename_i hk
    refine .take (by rw [hk]; decide) (fun x h => before_token rfl name x hk h) ?_
    exact .pure fun _ h => h
  · rename_i hk
    refine .take (by rw [hk]; decide) (fun x h => before_token rfl name x hk h) ?_
    exact .pure fun _ h => h
  · exact leads_report_pure.at name

theorem spans_postfixOps (hg : ReadsRegions g) (operand : Expr) :
    Spans .code (postfixOps g operand) := by
  intro R
  refine leads_loop fun e => .onKind fun t => ?_
  split
  · rename_i hk
    refine .take (by rw [hk]; decide) (fun x h => (past_open rfl t x hk h).before) ?_
    refine (spans_arguments hg _ _).bind fun _ => ?_
    exact .expect (by decide) closing_here fun _ => .pure fun _ h => h
  · rename_i hk
    refine LeadsAt.bind (LeadsAt.withNoStruct (Q := fun _ => Before .code R) ?_ false) fun _ =>
      .pure fun _ h => h
    refine .take (by rw [hk]; decide) (fun x h => (past_open rfl t x hk h).before) ?_
    refine (hg.expression.spans _).bind fun _ => ?_
    exact .expect (by decide) closing_here fun _ => .pure fun _ h => h
  · rename_i hk
    refine .take (by rw [hk]; decide) (fun x h => before_token rfl t x hk h) ?_
    refine (spans_member hg e R).bind fun r => ?_
    exact .ite (fun _ => .pure fun _ h => h) fun _ => .pure fun _ h => h
  · rename_i hk
    refine .take (by rw [hk]; decide) (fun x h => before_token rfl t x hk h) ?_
    exact .pure fun _ h => h
  · exact .pure fun _ h => h

theorem spansPast_unary (hg : ReadsRegions g) : SpansPast .code (unary g) := by
  intro R
  refine .onCurrent fun t => ?_
  split
  · rename_i op hop
    have hk : Region.code.reads t.kind = true ∧ t.kind ≠ .eof := by
      unfold UnaryOp.ofKind? at hop
      split at hop
      case h_4 => cases hop
      all_goals
        rename_i hk
        rw [hk]
        decide
    refine .take hk.2 (fun x h => past_token hk.1 t x rfl h) ?_
    exact (hg.unary.spans R).bind fun _ => .pure fun _ h => h
  · split
    case h_1 hk | h_2 hk =>
      refine .take (by rw [hk]; decide) (fun x h => past_token rfl t x hk h) ?_
      refine .maybe (by decide) (before_token rfl) fun _ => ?_
      exact (hg.unary.spans R).bind fun _ => .pure fun _ h => h
    case h_3 =>
      exact ((spansPast_primary hg R).bind fun e => spans_postfixOps hg e R).at t

theorem reads_binaryOp (op : BinaryOp) :
    Region.code.reads op.kind = true ∧ op.kind ≠ .eof := by
  cases op <;> decide

theorem reads_assignOp (op : AssignOp) :
    Region.code.reads op.kind = true ∧ op.kind ≠ .eof := by
  cases op <;> decide

theorem spans_binaryRest (hg : ReadsRegions g) (level : Nat) (operand : Expr) :
    Spans .code (binaryRest g level operand) := by
  intro R
  refine leads_loop fun e => .onKind fun t => ?_
  split
  · rename_i op hop
    have hk := reads_binaryOp op
    rw [ofKind?_binaryOp hop] at hk
    refine .ite (fun _ => ?_) fun _ => .pure fun _ h => h
    refine .take hk.2 (fun x h => before_token hk.1 t x rfl h) ?_
    exact ((hg.precedence _).spans R).bind fun _ => .pure fun _ h => h
  · refine .ite (fun hk => ?_) fun _ => .pure fun _ h => h
    refine .take (by rw [hk.1]; decide) (fun x h => (past_typed (.inl hk.1) h).before) ?_
    exact (spans_typeText hg _).bind fun _ => .pure fun _ h => .here h

theorem spansPast_precedence (hg : ReadsRegions g) (level : Nat) :
    SpansPast .code (precedence g level) :=
  fun R => (spansPast_unary hg R).bind fun e => spans_binaryRest hg level e R

theorem leads_rangeMark {P : List Token → Prop} {Q : α → List Token → Prop}
    {f : Option Bool → Parser α}
    (hsome : ∀ (t : Token) inclusive, t.kind = .dotDot ∨ t.kind = .dotDotEq →
      LeadsAt t P (f (some inclusive)) Q) (hnone : Leads P (f none) Q) :
    Leads P (rangeMark >>= f) Q := by
  unfold rangeMark
  rw [bind_assoc]
  refine .onKind fun t => ?_
  split
  case h_1 hk =>
    rw [pure_bind]
    exact hsome t _ (.inl hk)
  case h_2 hk =>
    rw [pure_bind]
    exact hsome t _ (.inr hk)
  case h_3 =>
    rw [pure_bind]
    exact hnone.at t

theorem spansPast_range (hg : ReadsRegions g) : SpansPast .code (range g) := by
  intro R
  have hlast := spans_optionalExpr (spansPast_precedence hg BinaryOp.lowest).spans R
  have hdots {t : Token} (ht : t.kind = .dotDot ∨ t.kind = .dotDotEq) :
      Region.code.reads t.kind = true ∧ t.kind ≠ .eof := by
    rcases ht with ht | ht <;> rw [ht] <;> decide
  refine leads_rangeMark (fun t _ ht => ?_) ?_
  · refine .take (hdots ht).2 (fun x h => past_token (hdots ht).1 t x rfl h) ?_
    exact hlast.bind fun _ => .pure fun _ h => h
  · refine (spansPast_precedence hg _ R).bind fun left => ?_
    refine leads_rangeMark (fun t _ ht => ?_) (.pure fun _ h => h)
    refine .take (hdots ht).2 (fun x h => before_token (hdots ht).1 t x rfl h) ?_
    exact hlast.bind fun _ => .pure fun _ h => h

theorem spans_assignRest (hg : ReadsRegions g) (left : Expr) : Spans .code (assignRest g left) := by
  intro R
  refine .onKind fun t => .ite (fun hk => ?_) fun _ => ?_
  · refine .take (by rw [hk]; decide) (fun x h => before_token rfl t x hk h) ?_
    exact (hg.expression.spans R).bind fun _ => .pure fun _ h => h
  · split
    · rename_i op hop
      have hk := reads_assignOp op
      rw [ofKind?_assignOp hop] at hk
      refine .take hk.2 (fun x h => before_token hk.1 t x rfl h) ?_
      exact (hg.expression.spans R).bind fun _ => .pure fun _ h => h
    · exact .pure fun _ h => h

theorem spansPast_expression (hg : ReadsRegions g) : SpansPast .code (expression g) :=
  fun R => (spansPast_range hg R).bind fun e => spans_assignRest hg e R

/-! ## Literals

In a pattern an operand has to be a literal. Only tokens that are literals become one. -/

/-- No result is a literal. -/
def NoLiteral (p : Parser Expr) : Prop := ∀ s e u, p s = some (e, u) → isLiteral e = false

theorem NoLiteral.pure {e : Expr} (h : isLiteral e = false) : NoLiteral (pure e) := by
  intro s e' u hr
  cases hr
  exact h

theorem NoLiteral.bind {p : Parser α} {f : α → Parser Expr} (hf : ∀ a, NoLiteral (f a)) :
    NoLiteral (p >>= f) := by
  intro s e v hr
  obtain ⟨⟨a, u⟩, _, hr⟩ := Option.bind_eq_some_iff.mp hr
  exact hf a u e v hr

theorem NoLiteral.ite {c : Prop} [Decidable c] {q : Parser Expr} (hp : NoLiteral p)
    (hq : NoLiteral q) : NoLiteral (if c then p else q) := by
  split
  · exact hp
  · exact hq

theorem NoLiteral.withNoStruct (h : NoLiteral p) (flag : Bool) :
    NoLiteral (withNoStruct flag p) := by
  intro s e u hr
  obtain ⟨⟨e', v⟩, hpr, he⟩ := Option.bind_eq_some_iff.mp
    (show (p { s with noStruct := flag }).bind _ = _ from hr)
  cases he
  exact h _ _ _ hpr

theorem noLiteral_pathExpr : NoLiteral (pathExpr g) := by
  refine .bind fun t => .bind fun segments => .bind fun _ => .bind fun _ => .ite ?_ ?_
  · refine NoLiteral.withNoStruct (.bind fun _ => .bind fun _ => .bind fun _ => ?_) false
    refine .bind fun _ => .bind fun _ => .ite ?_ ?_
    · exact .bind fun _ => .pure rfl
    · exact .bind fun _ => .bind fun _ => .pure rfl
  · refine .bind fun _ => .bind fun _ => .ite ?_ (.pure rfl)
    exact NoLiteral.withNoStruct (.bind fun _ => .bind fun _ => .bind fun _ => .pure rfl) false

theorem noLiteral_parenOrTuple : NoLiteral (parenOrTuple g) := by
  refine NoLiteral.withNoStruct (.bind fun _ => .bind fun _ => .ite (.pure rfl) ?_) false
  refine .bind fun _ => .bind fun _ => .ite (.pure rfl) ?_
  exact .bind fun _ => .bind fun _ => .pure rfl

theorem noLiteral_array : NoLiteral (array g) := by
  refine NoLiteral.withNoStruct (.bind fun _ => .bind fun _ => .ite (.pure rfl) ?_) false
  refine .bind fun _ => .bind fun _ => .ite ?_ ?_
  · exact .bind fun _ => .bind fun _ => .pure rfl
  · exact .bind fun _ => .bind fun _ => .pure rfl

theorem noLiteral_labelledLoop (label : Bytes) : NoLiteral (labelledLoop g label) := by
  refine .bind fun t => ?_
  split
  · exact .bind fun _ => .bind fun _ => .bind fun _ => .pure rfl
  · exact .bind fun _ => .bind fun _ => .pure rfl
  · exact .bind fun _ => .bind fun _ => .bind fun _ => .bind fun _ => .bind fun _ => .pure rfl
  · exact .bind fun _ => .pure rfl

theorem noLiteral_blockLike : NoLiteral (blockLike g) := by
  have hblock (isUnsafe : Bool) (label : Bytes) (pos : Pos) :
      NoLiteral (blockExpr g isUnsafe label pos) := .bind fun _ => .pure rfl
  refine .bind fun t => ?_
  split
  case h_1 =>
    refine .bind fun _ => .bind fun _ => .bind fun _ => .bind fun _ => .ite ?_ (.pure rfl)
    refine .bind fun _ => .ite (.bind fun _ => .pure rfl) ?_
    exact .bind fun _ => .bind fun _ => .pure rfl
  case h_5 =>
    refine .bind fun _ => .bind fun _ => NoLiteral.withNoStruct ?_ false
    exact .bind fun _ => .bind fun _ => .bind fun _ => .pure rfl
  case h_6 => exact .bind fun _ => hblock _ _ _
  case h_7 =>
    exact .bind fun _ => .bind fun _ => .bind fun _ => .ite (hblock _ _ _) (noLiteral_labelledLoop _)
  case h_8 => exact hblock _ _ _
  all_goals exact noLiteral_labelledLoop _

theorem noLiteral_closure : NoLiteral (closure g) := by
  refine .bind fun _ => .bind fun _ => .bind fun _ => .bind fun _ => .ite ?_ ?_
  · exact .bind fun _ => .bind fun _ => .bind fun _ => .pure rfl
  · exact .bind fun _ => .pure rfl

/-- Where a literal comes out, the current token was taken, and patterns take it too. -/
def TakesLiteral (t : Token) (p : Parser Expr) : Prop :=
  ∀ s e u, s.current = t → p s = some (e, u) → isLiteral e = true →
    s.ahead = t :: u.ahead ∧ Region.pattern.reads t.kind = true

theorem NoLiteral.takesLiteral (h : NoLiteral p) : TakesLiteral t p := by
  intro s e u _ hr he
  exact absurd he (by rw [h s e u hr]; decide)

theorem takesLiteral_literalExpr {kind : LiteralKind} (hne : t.kind ≠ .eof)
    (hk : Region.pattern.reads t.kind = true) : TakesLiteral t (literalExpr kind) := by
  intro s e u hc hr _
  obtain ⟨rest, hs⟩ := State.ahead_of_current hc hne
  obtain ⟨⟨_, v⟩, hv, hr⟩ := Option.bind_eq_some_iff.mp (show (advance s).bind _ = _ from hr)
  rw [advance_cons hs] at hv
  cases hv
  cases hr
  exact ⟨hs, hk⟩

theorem TakesLiteral.onCurrent {f : Token → Parser Expr} (h : ∀ t, TakesLiteral t (f t)) :
    TakesLiteral t (current >>= f) := by
  rintro s e u rfl hr
  exact h s.current s e u rfl hr

theorem takesLiteral_primary : TakesLiteral t (primary g) := by
  refine .onCurrent fun t => ?_
  split
  case h_1 hk | h_2 hk | h_3 hk | h_4 hk | h_5 hk | h_6 hk | h_7 hk =>
    exact takesLiteral_literalExpr (by rw [hk]; decide) (by rw [hk]; rfl)
  all_goals refine NoLiteral.takesLiteral ?_
  case h_8 | h_9 | h_10 | h_11 | h_12 | h_13 => exact noLiteral_pathExpr
  case h_14 => exact noLiteral_parenOrTuple
  case h_15 => exact noLiteral_array
  case h_16 | h_17 | h_18 | h_19 | h_20 | h_21 | h_22 | h_23 => exact noLiteral_blockLike
  case h_24 | h_25 | h_26 => exact noLiteral_closure
  case h_27 => exact .bind fun _ => .bind fun _ => .bind fun _ => .bind fun _ => .pure rfl
  case h_29 => exact .bind fun _ => .bind fun _ => .bind fun _ => .pure rfl
  all_goals exact .bind fun _ => .bind fun _ => .pure rfl

theorem leads_primary_literal (hg : ReadsRegions g) :
    Leads (Before .pattern R) (primary g) (fun e x => isLiteral e = true ∧ Before .pattern R x) := by
  intro s e u hr
  refine ⟨(spansPast_primary hg (fun _ => True) s e u hr).1, fun _ ⟨he, hR⟩ => ?_⟩
  obtain ⟨hs, hk⟩ := takesLiteral_primary s e u rfl hr he
  rw [hs]
  exact before_token hk _ _ rfl hR

end RustLua.Parser
