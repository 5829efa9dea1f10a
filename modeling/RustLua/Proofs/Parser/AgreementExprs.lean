import RustLua.Proofs.Parser.AgreementTrees

/-! # Agreement on expressions

An expression stops where no operator follows, and neither a semicolon nor a closing
parenthesis is one. What stands between delimiters is read alike because the closing one
is still to come. -/
namespace RustLua.Parser

open RustLua.Tree Result

variable {α β : Type} {fork : Fork} {K : Prop} {c n : Nat} {s t : State} {g g' : Grammar}
  {closer : Token.Kind}

/-! ## What can start where -/

theorem agree_startsExpr : Agree fork True 0 n startsExpr startsExpr := by
  refine .onGet fun s t hst => ?_
  rw [hst.noStruct]
  rcases hst.current with hw | ⟨hs, ht⟩
  · rw [show s.current.kind = t.current.kind from congrArg Prod.fst hw]
    split <;> exact agree_pure _
  · rcases ender_cases hs with hs | hs | hs <;> rcases ender_cases ht with ht | ht | ht <;>
      rw [hs, ht] <;> exact agree_pure _

theorem agree_condition (hg : Agrees fork g g') :
    Agree fork True 0 n (condition g) (condition g') :=
  hg.expression.withNoStruct true

theorem agree_arguments (hg : Agrees fork g g') (hn : 0 < n) :
    Agree fork True 0 n (arguments g closer) (arguments g' closer) :=
  (agree_commaList hn hg.expression).withNoStruct false

/-- A part that may be left out. -/
theorem Agree.optional [Result α] [Result β] {k : Token.Kind} {p p' : Parser α}
    {f f' : Option α → Parser β} {J : Prop} (hk : (k == .eof) = false)
    (hend : ender k = false) (hp : Agree fork J 0 (n + c) p p')
    (hf : ∀ o o', Same o o' → Agree fork (K ∧ clear o = true) c n (f o) (f' o')) :
    Agree fork K c n
      (do if ← Parser.accept k then some <$> p >>= f else Pure.pure none >>= f)
      (do if ← Parser.accept k then some <$> p' >>= f' else Pure.pure none >>= f') := by
  refine .accept hk (.inl hend) ?_ ?_
  · exact .fewer (.bind hp.present hf) (Nat.sub_le _ _)
  · exact .bind (agree_pure none) hf

/-! ## Delimited expressions -/

theorem agree_moreElements (hg : Agrees fork g g') (hn : 0 < n) :
    Agree fork True 0 n (moreElements g closer) (moreElements g' closer) := by
  refine (agree_loop (fun l l' hl => ?_) (.refl [])).keep fun _ => trivial
  refine .accept rfl (.inr hn) ?_ (.pure (same_done.mpr hl) id)
  refine .check (.inr hn) fun _ => .ite (fun _ => .pure (same_done.mpr hl) id) fun _ => ?_
  exact .bind hg.expression fun e e' he => .pure (same_more.mpr (hl.concat he)) clear_concat

theorem agree_parenOrTuple (hg : Agrees fork g g') :
    Agree fork True 0 n (parenOrTuple g) (parenOrTuple g') := by
  refine Agree.withNoStruct (.fewer (m := 2) ?_ (Nat.zero_le 2)) false
  refine .expect rfl fun _ _ _ i j => .accept rfl (.inr (Nat.succ_pos _)) ?_ ?_
  · exact .pure rfl fun _ => trivial
  · refine .bind hg.expression fun e e' he => .accept rfl (.inr (Nat.succ_pos _)) ?_ ?_
    · exact .pure (congrArg (Expr.paren · nowhere) he) fun h => ⟨trivial, h⟩
    · refine .bind (agree_moreElements hg (Nat.succ_pos _)) fun l l' hl => ?_
      refine .expect rfl fun _ _ _ _ _ => .pure ?_ fun h => ?_
      · simp_all [Same, bare]
      · simp_all [clear]

theorem agree_array (hg : Agrees fork g g') : Agree fork True 0 n (array g) (array g') := by
  refine Agree.withNoStruct (.fewer (m := 2) ?_ (Nat.zero_le 2)) false
  refine .expect rfl fun _ _ _ i j => .accept rfl (.inr (Nat.succ_pos _)) ?_ ?_
  · exact .pure rfl fun _ => trivial
  · refine .bind hg.expression fun e e' he => ?_
    refine .accept rfl (.inr (Nat.succ_pos _)) (.fewer (m := 1) ?_ (Nat.zero_le 1)) ?_
    · refine .bind hg.expression fun l l' hl => .expect rfl fun _ _ _ _ _ => .pure ?_ fun h => ?_
      · simp_all [Same, bare]
      · simp_all [clear]
    · refine .bind (agree_moreElements hg (Nat.succ_pos _)) fun l l' hl => ?_
      refine .expect rfl fun _ _ _ _ _ => .pure ?_ fun h => ?_
      · simp_all [Same, bare]
      · simp_all [clear]

theorem agree_macroArguments (hg : Agrees fork g g') (hn : 0 < n) :
    Agree fork True 0 n (macroArguments g closer) (macroArguments g' closer) := by
  refine (agree_loop (fun l l' hl => ?_) (.refl [])).keep fun _ => trivial
  refine .check (.inr hn) fun _ => .check (.inl rfl) fun _ => .ite (fun _ => ?_) fun _ => ?_
  · exact .pure (same_done.mpr hl) id
  · refine .bind hg.expression fun e e' he => ?_
    refine .accept rfl (.inr hn) ?_ (.accept rfl (.inr hn) ?_ ?_)
    · exact .pure (same_more.mpr (hl.concat he)) clear_concat
    · exact .pure (same_more.mpr (hl.concat he)) clear_concat
    · exact .pure (same_done.mpr (hl.concat he)) clear_concat

/-- The trial on the arguments of a macro call, which reports where they are no list of
expressions. -/
def macroTrial (g : Grammar) (path : List Bytes) (pos : Pos) : Parser Expr := do
  let opener ← advance
  let args ← macroArguments g (closerOf opener.kind)
  let _ ← expect (closerOf opener.kind)
  return .macroCall path args false pos

theorem agree_macroTrial (hg : Agrees fork g g') (path : List Bytes) (pos pos' : Pos) :
    Agree fork True 0 n (macroTrial g path pos) (macroTrial g' path pos') := by
  refine .advance fun k _ _ _ _ => .fewer (m := 1) ?_ (Nat.zero_le 1)
  refine .bind (agree_macroArguments hg (Nat.succ_pos _)) fun l l' hl => ?_
  refine .expect (beq_false_of_ne (closerOf_ne_eof k)) fun _ _ _ _ _ => .pure ?_ fun h => ?_
  · simp_all [Same, bare]
  · simp_all [clear]

/-- A quiet trial is taken over as it is; any other leaves an opaque call. -/
theorem macroGroup_eq_some {path : List Bytes} {pos : Pos} {e : Expr} {u : State}
    (hm : ∀ closer, Moves (macroArguments g closer)) (h : macroGroup g path pos s = some (e, u)) :
    ∃ e' u', macroTrial g path pos s = some (e', u') ∧
      (u'.bag = s.bag ∧ e' = e ∧ u' = u ∨ u'.bag ≠ s.bag ∧ e.clear = false ∧ Moved s u) := by
  obtain ⟨⟨opener, w⟩, hadv, h⟩ := Option.bind_eq_some_iff.mp (show (advance s).bind _ = _ from h)
  obtain ⟨-, hsw, hbw⟩ := advance_eq_some hadv
  obtain ⟨⟨args, stop⟩, hargs, h⟩ := Option.bind_eq_some_iff.mp
    (show (macroArguments g (closerOf opener.kind) w).bind _ = _ from h)
  have hmoved : Moved s stop := hsw.trans (hm _ _ _ _ hargs)
  change (if stop.current.kind = closerOf opener.kind ∧ stop.bag.count = s.bag.count then _
    else _ : Parser Expr) stop = _ at h
  have hblind (hbad : ¬(stop.current.kind = closerOf opener.kind ∧
      stop.bag.count = s.bag.count)) : e.clear = false ∧ Moved s u := by
    rw [if_neg hbad, hmoved.rewind_bind] at h
    obtain ⟨⟨_, v⟩, hskip, h⟩ := Option.bind_eq_some_iff.mp (show (skipBalanced s).bind _ = _ from h)
    cases h
    exact ⟨rfl, moves_skipBalanced _ _ _ hskip⟩
  have htrial : macroTrial g path pos s = (do
      let _ ← expect (closerOf opener.kind)
      return .macroCall path args false pos : Parser Expr) stop := by
    change (advance s).bind _ = _
    rw [hadv]
    change (macroArguments g (closerOf opener.kind) w).bind _ = _
    rw [hargs]
    rfl
  by_cases hc : stop.current.kind = closerOf opener.kind
  · obtain ⟨rest, hstop⟩ := State.ahead_of_current rfl (hc ▸ closerOf_ne_eof _)
    refine ⟨.macroCall path args false pos, stop.took stop.current.kind rest, ?_, ?_⟩
    · rw [htrial]
      change (expect _ stop).bind _ = _
      rw [expect_of_current hc, advance_cons hstop]
      rfl
    · by_cases hcount : stop.bag.count = s.bag.count
      · left
        rw [if_pos ⟨hc, hcount⟩] at h
        obtain ⟨⟨_, v⟩, hv, h⟩ := Option.bind_eq_some_iff.mp (show (advance stop).bind _ = _ from h)
        rw [advance_cons hstop] at hv
        cases hv
        cases h
        exact ⟨hmoved.bag_eq hcount, rfl, rfl⟩
      · right
        exact ⟨fun hb => hcount (congrArg Bag.count hb), hblind fun hgood => hcount hgood.2⟩
  · refine ⟨.macroCall path args false pos,
      stop.report stop.current.pos (.expected (closerOf opener.kind).name stop.current), ?_,
      .inr ⟨?_, hblind fun hgood => hc hgood.1⟩⟩
    · rw [htrial]
      change (expect _ stop).bind _ = _
      rw [expect_of_other hc]
      rfl
    · intro hb
      have hle := hmoved.count_le
      have hcount := congrArg Bag.count hb
      simp [State.report, Bag.add, Bag.count] at hcount hle
      omega

/-- Only a trial that succeeds gives a clear call, and then the other one does too. -/
theorem agree_macroGroup (hg : Agrees fork g g') (path : List Bytes) (pos pos' : Pos) :
    Agree fork True 0 n (macroGroup g path pos) (macroGroup g' path pos') := by
  have hargs (closer : Token.Kind) : Moves (macroArguments g closer) :=
    fun s a u hr => (agree_macroArguments hg Nat.one_pos s a u hr).1
  have hargs' (closer : Token.Kind) : Moves (macroArguments g' closer) :=
    moves_of_runs fun _ _ => reads_macroArguments hg.sound closer
  intro s e u hr
  obtain ⟨e', u', htrial, ⟨hbag, rfl, rfl⟩ | ⟨-, hblind, hm⟩⟩ := macroGroup_eq_some hargs hr
  · obtain ⟨hm, hq⟩ := agree_macroTrial hg path pos pos' s e' u' htrial
    refine ⟨hm, fun hb => ?_⟩
    obtain ⟨hl, hk, ha⟩ := hq hb
    refine ⟨hl, hk, fun hn hc t b v hst hv => ?_⟩
    obtain ⟨b', v', htrial', hcases⟩ := macroGroup_eq_some hargs' hv
    have hboth := ha hn hc t b' v' hst htrial'
    rcases hcases with ⟨-, rfl, rfl⟩ | ⟨hloud, -⟩
    · exact hboth
    · exact absurd hboth.1 hloud
  · refine ⟨hm, fun _ => ⟨hm.ahead.length_le, fun _ => trivial, fun _ hc => ?_⟩⟩
    exact absurd (hblind.symm.trans hc) Bool.false_ne_true

theorem agree_macroCall (hg : Agrees fork g g') (path : List Bytes) (pos pos' : Pos) :
    Agree fork True 0 n (macroCall g path pos) (macroCall g' path pos') := by
  refine Agree.withNoStruct ?_ false
  exact .expect rfl fun _ _ _ _ _ => agree_macroGroup hg path pos pos'

theorem agree_structFields (hg : Agrees fork g g') (hn : 0 < n) :
    Agree fork True 0 n (structFields g) (structFields g') := by
  refine (agree_loop (fun l l' hl => ?_) (.refl [])).keep fun _ => trivial
  refine .check (.inl rfl) fun _ => .check (.inl rfl) fun _ => .ite (fun _ => ?_) fun _ => ?_
  · exact .pure (same_done.mpr hl) id
  · refine .accept rfl (.inl rfl) ?_ (.onCurrentWithin hn fun k name r i j => ?_)
    · refine .bind hg.expression fun e e' he => ?_
      have hfield : Same (FieldInit.mk ".." e) (.mk ".." e') := congrArg (FieldInit.mk _) he
      exact .pure (same_done.mpr (hl.concat hfield)) clear_concat
    · refine .ite (fun _ => .advance fun _ _ _ _ _ => ?_) fun _ => agree_report
      refine .maybe rfl (.inl rfl) fun _ => .iteBind hg.expression (.pure rfl id) fun e e' he => ?_
      have hfield : Same (FieldInit.mk name e) (.mk name e') := congrArg (FieldInit.mk _) he
      refine .accept rfl (.inr hn) ?_ ?_
      · exact .pure (same_more.mpr (hl.concat hfield)) clear_concat
      · exact .pure (same_done.mpr (hl.concat hfield)) clear_concat

theorem agree_structLiteral (hg : Agrees fork g g') (path : List Bytes) (pos pos' : Pos) :
    Agree fork True 0 n (structLiteral g path pos) (structLiteral g' path pos') := by
  refine Agree.withNoStruct ?_ false
  refine .expect rfl fun _ _ _ _ _ => .fewer (m := 1) ?_ (Nat.zero_le 1)
  refine .bind (agree_structFields hg (Nat.succ_pos _)) fun l l' hl => ?_
  refine .expect rfl fun _ _ _ _ _ => .pure ?_ fun h => ?_
  · simp_all [Same, bare]
  · simp_all [clear]

theorem agree_pathExpr (hg : Agrees fork g g') :
    Agree fork True 0 n (pathExpr g) (pathExpr g') := by
  refine .onAny fun a b => .bind agree_path fun segments segments' hs => ?_
  obtain rfl : segments = segments' := hs
  refine Agree.keep (J := True) ?_ fun _ => ⟨trivial, rfl⟩
  refine .onPair rfl (fun k hk => ?_) (agree_macroCall hg segments a.pos b.pos) ?_
  · rcases ender_cases hk with rfl | rfl | rfl <;> rfl
  · refine .check (.inl rfl) fun _ => .onGet fun s t hst => ?_
    rw [hst.noStruct]
    refine .ite (fun _ => agree_structLiteral hg segments a.pos b.pos) fun _ => ?_
    exact .pure rfl fun _ => trivial

/-! ## Control flow -/

theorem agree_blockExpr (hg : Agrees fork g g') (isUnsafe : Bool) (label : Bytes)
    (pos pos' : Pos) :
    Agree fork True 0 n (blockExpr g isUnsafe label pos) (blockExpr g' isUnsafe label pos') :=
  .bind hg.block fun _ _ hb =>
    .pure (congrArg (Expr.block · isUnsafe label nowhere) hb) fun h => ⟨trivial, h⟩

theorem agree_ifElse (hg : Agrees fork g g') : Agree fork True 0 n (ifElse g) (ifElse g') := by
  refine .expect rfl fun _ _ _ i j => .bind (agree_condition hg) fun cond cond' hcond => ?_
  refine .bind hg.block fun body body' hbody => .accept rfl (.inl rfl) ?_ ?_
  · refine .check (.inl rfl) fun _ => .ite (fun _ => ?_) fun _ => .onAny fun a b => ?_
    · refine .bind hg.ifElse fun e e' he => .pure ?_ fun h => ?_
      · simp_all [Same, bare]
      · simp_all [clear]
    · refine .bind hg.block fun e e' he => .pure ?_ fun h => ?_
      · simp_all [Same, bare]
      · simp_all [clear]
  · refine .pure ?_ fun h => ?_
    · simp_all [Same, bare]
    · simp_all [clear]

theorem agree_labelledLoop (hg : Agrees fork g g') (label : Bytes) :
    Agree fork True 0 n (labelledLoop g label) (labelledLoop g' label) := by
  refine .onCurrent (fun k l r i j => ?_) fun a b ha _ => ?_
  · dsimp only
    split
    · refine .advance fun _ _ _ _ _ => .bind (agree_condition hg) fun cond cond' hcond => ?_
      refine .bind hg.block fun body body' hbody => .pure ?_ fun h => ?_
      · simp_all [Same, bare]
      · simp_all [clear]
    · refine .advance fun _ _ _ _ _ => .bind hg.block fun body body' hbody => ?_
      exact .pure (congrArg (Expr.loop · label nowhere) hbody) fun h => ⟨trivial, h⟩
    · refine .advance fun _ _ _ _ _ => .bind (agree_topPattern hg) fun p p' hp => ?_
      refine .expect rfl fun _ _ _ _ _ => .bind (agree_condition hg) fun e e' he => ?_
      refine .bind hg.block fun body body' hbody => .pure ?_ fun h => ?_
      · simp_all [Same, bare]
      · simp_all [clear]
    · exact agree_report
  · rcases ender_cases ha with ha | ha | ha <;> rw [ha]
    all_goals exact agree_report

/-- An arm of a match, and whether what should follow it does. -/
def matchArm (g : Grammar) : Parser (Arm × Bool) := do
  skipAttributes
  let p ← topPattern g
  let guard ← if ← accept .kwIf then some <$> g.expression else pure none
  let _ ← expect .fatArrow
  let t ← current
  let hasBlock := t.kind = .braceOpen
  let body ← if hasBlock then blockExpr g false [] t.pos else g.expression
  let comma ← accept .comma
  let closed ← check .braceClose
  return (.mk p guard body, comma || hasBlock || closed)

/-- What follows an arm, which may be idle and have taken no token. -/
def afterArm (arms : List Arm) (ended idle : Bool) : Parser (Step (List Arm) (List Arm)) := do
  if !ended then
    report (.expected ", or \x7d after match arm" (← current))
    return .done arms
  else if idle then return .done arms
  else return .more arms

theorem get_afterArm (arms : List Arm) (ended : Bool) (before : Nat) :
    (do afterArm arms ended ((← get).ahead.length = before)) = (do
      if !ended then
        report (.expected ", or \x7d after match arm" (← current))
        return .done arms
      else if (← get).ahead.length = before then return .done arms
      else return .more arms : Parser (Step (List Arm) (List Arm))) := by
  unfold afterArm
  cases ended with
  | false => rfl
  | true => simp only [Bool.not_true, Bool.false_eq_true, if_false, decide_eq_true_eq]

theorem matchArms_eq (g : Grammar) : matchArms g = loop (fun acc => do
    if (← check .braceClose) || (← check .eof) then return .done acc
    else
      let before := (← get).ahead.length
      let (arm, ended) ← matchArm g
      afterArm (acc ++ [arm]) ended ((← get).ahead.length = before)) [] := by
  unfold matchArms matchArm
  congr 1
  funext acc
  refine bind_congr fun _ => bind_congr fun _ => ?_
  split
  · rfl
  · simp only [bind_assoc]
    refine bind_congr fun _ => bind_congr fun _ => bind_congr fun _ => bind_congr fun _ => ?_
    split
    all_goals
      simp only [bind_assoc]
      refine bind_congr fun _ => bind_congr fun _ => bind_congr fun _ => ?_
      split <;> simp only [bind_assoc, pure_bind, get_afterArm, Bool.not_or]

theorem agree_matchArm (hg : Agrees fork g g') (hn : 0 < n) :
    Agree fork True 0 n (matchArm g) (matchArm g') := by
  refine .next agree_skipAttributes (.bind (agree_topPattern hg) fun p p' hp => ?_)
  refine .optional rfl rfl hg.expression fun guard guard' hguard => ?_
  refine .expect rfl fun _ _ _ _ _ => .onCurrentWithin hn fun k l r i j => ?_
  refine .iteBind (agree_blockExpr hg false [] i j) hg.expression fun e e' he => ?_
  refine .maybe rfl (.inr hn) fun _ => .check (.inl rfl) fun _ => .pure ?_ fun h => ?_
  · simp_all [Same, bare]
  · simp_all [clear]

theorem agree_matchArms (hg : Agrees fork g g') (hn : 0 < n) :
    Agree fork True 0 n (matchArms g) (matchArms g') := by
  rw [matchArms_eq, matchArms_eq]
  refine (agree_loop (fun l l' hl => ?_) (.refl [])).keep fun _ => trivial
  refine .check (.inl rfl) fun _ => .check (.inl rfl) fun _ => .ite (fun _ => ?_) fun _ => ?_
  · exact .pure (same_done.mpr hl) id
  · refine .measured (agree_matchArm hg hn) fun x x' hx idle => ?_
    obtain ⟨arm, ended⟩ := x
    obtain ⟨arm', ended'⟩ := x'
    obtain ⟨harm, rfl⟩ : Same arm arm' ∧ ended = ended' := Prod.mk.inj hx
    have hclear (h : clear (l ++ [arm]) = true) : clear l = true ∧ clear (arm, ended) = true :=
      ⟨(clear_concat h).1, by simpa [clear] using (clear_concat h).2⟩
    refine .ite (fun _ => .onAny fun _ _ => agree_report) fun _ => .ite (fun _ => ?_) fun _ => ?_
    · exact .pure (same_done.mpr (hl.concat harm)) hclear
    · exact .pure (same_more.mpr (hl.concat harm)) hclear

theorem agree_matchOn (hg : Agrees fork g g') : Agree fork True 0 n (matchOn g) (matchOn g') := by
  refine .expect rfl fun _ _ _ i j => .bind (agree_condition hg) fun e e' he => ?_
  refine Agree.withNoStruct ?_ false
  refine .expect rfl fun _ _ _ _ _ => .fewer (m := 1) ?_ (Nat.zero_le 1)
  refine .bind (agree_matchArms hg (Nat.succ_pos _)) fun l l' hl => ?_
  refine .expect rfl fun _ _ _ _ _ => .pure ?_ fun h => ?_
  · simp_all [Same, bare]
  · simp_all [clear]

theorem agree_blockLike (hg : Agrees fork g g') :
    Agree fork True 0 n (blockLike g) (blockLike g') := by
  refine .onCurrent (fun k l r i j => ?_) fun a b ha hb => ?_
  · dsimp only
    split
    · exact agree_ifElse hg
    · exact agree_labelledLoop hg []
    · exact agree_labelledLoop hg []
    · exact agree_labelledLoop hg []
    · exact agree_matchOn hg
    · exact .advance fun _ _ _ _ _ => agree_blockExpr hg true [] i j
    · refine .advance fun _ _ _ _ _ => .expect rfl fun _ _ _ _ _ => .check (.inl rfl) fun _ => ?_
      exact .ite (fun _ => agree_blockExpr hg false l i j) fun _ => agree_labelledLoop hg l
    · exact agree_blockExpr hg false [] i j
  · rcases ender_cases ha with ha | ha | ha <;> rcases ender_cases hb with hb | hb | hb <;>
      rw [ha, hb] <;> exact agree_blockExpr hg false [] _ _

/-! ## Closures -/

theorem agree_closureParam (hg : Agrees fork g g') :
    Agree fork True 0 n (closureParam g) (closureParam g') := by
  refine .onAny fun a b => .bind hg.pattern fun p p' hp => ?_
  refine .optional rfl rfl (agree_typeText hg) fun o o' ho => .pure ?_ fun _ => ?_
  · simp_all [Same, bare, Param.bare]
  · simp [clear]

theorem agree_closureParams (hg : Agrees fork g g') :
    Agree fork True 0 n (closureParams g) (closureParams g') := by
  refine .accept rfl (.inl rfl) (agree_pure _) ?_
  refine .expect rfl fun _ _ _ _ _ => .fewer (m := 1) ?_ (Nat.zero_le 1)
  refine .bind (agree_commaList (Nat.succ_pos _) (agree_closureParam hg)) fun l l' hl => ?_
  exact .expect rfl fun _ _ _ _ _ => .pure hl fun h => ⟨trivial, h⟩

theorem agree_closure (hg : Agrees fork g g') : Agree fork True 0 n (closure g) (closure g') := by
  refine .onAny fun a b => .maybe rfl (.inl rfl) fun isMove => ?_
  refine .bind (agree_closureParams hg) fun l l' hl => ?_
  have hclosure {e e' : Expr} (he : Same e e') :
      Same (Expr.closure l e isMove a.pos) (.closure l' e' isMove b.pos) := by
    simp_all [Same, bare]
  refine .accept rfl (.inl rfl) ?_ ?_
  · refine .bind (agree_typeText hg) fun _ _ _ => .onAny fun x y => ?_
    refine .bind (agree_blockExpr hg false [] x.pos y.pos) fun e e' he => ?_
    exact .pure (hclosure he) fun h => ⟨⟨⟨trivial, by simp [clear]⟩, rfl⟩, h⟩
  · refine .bind hg.expression fun e e' he => ?_
    exact .pure (hclosure he) fun h => ⟨⟨trivial, by simp [clear]⟩, h⟩

/-! ## Operands and operators -/

theorem agree_optionalExpr {p p' : Parser Expr} {J : Prop} (h : Agree fork J 0 n p p') :
    Agree fork True 0 n (optionalExpr p) (optionalExpr p') := by
  refine .bind agree_startsExpr fun b b' hb => ?_
  obtain rfl : b = b' := hb
  refine .ite (fun _ => h.present.keep fun _ => ⟨trivial, rfl⟩) fun _ => ?_
  exact .pure rfl fun _ => ⟨trivial, rfl⟩

theorem agree_optionalLabel : Agree fork True 0 n optionalLabel optionalLabel := by
  refine .check (.inl rfl) fun _ => .ite (fun _ => ?_) fun _ => agree_pure _
  exact .advance fun _ _ _ _ _ => agree_pure _

theorem agree_literalExpr (kind : LiteralKind) :
    Agree fork True 0 n (literalExpr kind) (literalExpr kind) :=
  .advance fun _ _ _ _ _ => .pure rfl fun _ => trivial

theorem agree_primary (hg : Agrees fork g g') : Agree fork True 0 n (primary g) (primary g') := by
  refine .onCurrent (fun k l r i j => ?_) fun a b ha _ => ?_
  · dsimp only
    split
    case h_1 | h_2 | h_3 | h_4 | h_5 | h_6 | h_7 => exact agree_literalExpr _
    case h_8 | h_9 | h_10 | h_11 | h_12 | h_13 => exact agree_pathExpr hg
    case h_14 => exact agree_parenOrTuple hg
    case h_15 => exact agree_array hg
    case h_24 | h_25 | h_26 => exact agree_closure hg
    case h_27 =>
      refine .advance fun _ _ _ _ _ => .bind (agree_topPattern hg) fun p p' hp => ?_
      refine .expect rfl fun _ _ _ _ _ => .bind (hg.precedence _) fun e e' he => ?_
      refine .pure ?_ fun h => ⟨⟨trivial, rfl⟩, h⟩
      simp_all [Same, bare]
    case h_28 =>
      refine .advance fun _ _ _ _ _ => .bind (agree_optionalExpr hg.expression) fun e e' he => ?_
      refine .pure ?_ fun h => ?_
      · simp_all [Same, bare]
      · simp_all [clear]
    case h_29 =>
      refine .advance fun _ _ _ _ _ => .bind agree_optionalLabel fun label label' hlabel => ?_
      obtain rfl : label = label' := hlabel
      refine .bind (agree_optionalExpr hg.expression) fun e e' he => .pure ?_ fun h => ?_
      · simp_all [Same, bare]
      · simp_all [clear]
    case h_30 =>
      refine .advance fun _ _ _ _ _ => .bind agree_optionalLabel fun label label' hlabel => ?_
      obtain rfl : label = label' := hlabel
      exact .pure rfl fun _ => ⟨trivial, rfl⟩
    case h_31 =>
      exact .loud ((loud_report _).next fun _ => moves_advance.bind fun _ => .pure _)
    all_goals exact agree_blockLike hg
  · rcases ender_cases ha with ha | ha | ha <;> rw [ha]
    all_goals exact .loud ((loud_report _).next fun _ => moves_advance.bind fun _ => .pure _)

/-- Fields of fields, as a number after a dot stands for. -/
theorem same_fields {e e' : Expr} (h : Same e e') (fields : List Bytes) (pos pos' : Pos) :
    Same (fields.foldl (fun e f => Expr.field e f pos) e)
      (fields.foldl (fun e f => Expr.field e f pos') e') := by
  induction fields generalizing e e' with
  | nil => exact h
  | cons f fields ih => exact ih (congrArg (Expr.field · f nowhere) h)

theorem clear_fields {e : Expr} (fields : List Bytes) (pos : Pos) :
    (fields.foldl (fun e f => Expr.field e f pos) e).clear = e.clear := by
  induction fields generalizing e with
  | nil => rfl
  | cons f fields ih => exact ih

theorem agree_member (hg : Agrees fork g g') {e e' : Expr} (he : Same e e') :
    Agree fork (clear e = true) 0 n (member g e) (member g' e') := by
  refine .onCurrent (fun k name r i j => ?_) fun a b ha _ => ?_
  · dsimp only
    split
    · have hless (k : Token.Kind) (hk : ender k = true) : decide (k = .less) = false := by
        rcases ender_cases hk with rfl | rfl | rfl <;> rfl
      suffices hrest : Agree fork (clear e = true) 0 n _ _ from
        .advance fun _ _ _ _ _ => .onPair rfl hless
          (.advance fun _ _ _ _ _ => .next agree_skipAngles hrest) hrest
      refine .accept rfl (.inl rfl) (.fewer (m := 1) ?_ (Nat.zero_le 1)) ?_
      · refine .bind (agree_arguments hg (Nat.succ_pos _)) fun l l' hl => ?_
        refine .expect rfl fun _ _ _ _ _ => .pure ?_ fun h => ?_
        · simp_all [Same, bare]
        · simp_all [clear]
      · refine .pure ?_ fun h => ?_
        · simp_all [Same, bare]
        · simp_all [clear]
    · refine .advance fun _ _ _ _ _ => .pure ?_ fun h => ?_
      · simp_all [Same, bare]
      · simp_all [clear]
    · refine .advance fun _ _ _ _ _ => .pure ?_ fun h => ?_
      · exact congrArg (·, true) (same_fields he _ _ _)
      · simpa [clear, clear_fields] using h
    · exact agree_report
  · rcases ender_cases ha with ha | ha | ha <;> rw [ha]
    all_goals exact agree_report

theorem agree_postfixOps (hg : Agrees fork g g') {e e' : Expr} (he : Same e e') :
    Agree fork (clear e = true) 0 n (postfixOps g e) (postfixOps g' e') := by
  refine agree_loop (fun e e' he => .onKind rfl rfl fun k => ?_) he
  split
  · refine .advance fun _ _ _ _ _ => .fewer (m := 1) ?_ (Nat.zero_le 1)
    refine .bind (agree_arguments hg (Nat.succ_pos _)) fun l l' hl => ?_
    refine .expect rfl fun _ _ _ _ _ => .pure (same_more.mpr ?_) fun h => ?_
    · simp_all [Same, bare]
    · simp_all [clear, Step.clear]
  · refine .bind (.withNoStruct (K := True) ?_ false) fun o o' ho => ?_
    · refine .advance fun _ _ _ _ _ => .bind hg.expression fun o o' ho => ?_
      exact .expect rfl fun _ _ _ _ _ => .pure ho fun h => ⟨trivial, h⟩
    · refine .pure (same_more.mpr ?_) fun h => ?_
      · simp_all [Same, bare]
      · simp_all [clear, Step.clear]
  · -- the operand is a part of the access to its member
    refine .advance fun _ _ _ _ _ => .bindKeep (L := True) (agree_member hg he) (fun x x' hx => ?_)
      fun hk _ => hk
    obtain ⟨f, found⟩ := x
    obtain ⟨f', found'⟩ := x'
    obtain ⟨hf, rfl⟩ : Same f f' ∧ found = found' := Prod.mk.inj hx
    have hclear (h : clear f = true) : True ∧ clear (f, found) = true := by simpa [clear] using h
    cases found with
    | true => exact .pure (same_more.mpr hf) hclear
    | false => exact .pure (same_done.mpr hf) hclear
  · refine .advance fun _ _ _ _ _ => .pure (same_more.mpr ?_) fun h => h
    exact congrArg (Expr.tryOp · nowhere) he
  · exact .pure (same_done.mpr he) id

theorem agree_unary (hg : Agrees fork g g') : Agree fork True 0 n (unary g) (unary g') := by
  have hrest : Agree fork True 0 n (do postfixOps g (← primary g))
      (do postfixOps g' (← primary g')) :=
    .bind (agree_primary hg) fun e e' he => (agree_postfixOps hg he).keep fun h => ⟨trivial, h⟩
  refine .onCurrent (fun k l r i j => ?_) fun a b ha hb => ?_
  · dsimp only
    split
    · refine .advance fun _ _ _ _ _ => .bind hg.unary fun e e' he => .pure ?_ fun h => ⟨trivial, h⟩
      exact congrArg (Expr.unary _ · nowhere) he
    · split
      · refine .advance fun _ _ _ _ _ => .maybe rfl (.inl rfl) fun isMut => ?_
        refine .bind hg.unary fun e e' he => .pure ?_ fun h => ⟨trivial, h⟩
        exact congrArg (Expr.ref isMut · nowhere) he
      · refine .advance fun _ _ _ _ _ => .maybe rfl (.inl rfl) fun isMut => ?_
        refine .bind hg.unary fun e e' he => .pure ?_ fun h => ⟨trivial, h⟩
        exact congrArg (fun e => Expr.ref false (.ref isMut e nowhere) nowhere) he
      · exact hrest
  · rcases ender_cases ha with ha | ha | ha <;> rcases ender_cases hb with hb | hb | hb <;>
      rw [ha, hb] <;> exact hrest

theorem agree_binaryRest (hg : Agrees fork g g') (level : Nat) {e e' : Expr} (he : Same e e') :
    Agree fork (clear e = true) 0 n (binaryRest g level e) (binaryRest g' level e') := by
  refine agree_loop (fun e e' he => .onKind rfl rfl fun k => ?_) he
  split
  · refine .ite (fun _ => .advance fun _ _ _ _ _ => ?_) fun _ => .pure (same_done.mpr he) id
    refine .bind (hg.precedence _) fun r r' hr => .pure (same_more.mpr ?_) fun h => ?_
    · simp_all [Same, bare]
    · simp_all [clear, Step.clear]
  · refine .ite (fun _ => .advance fun _ _ _ _ _ => ?_) fun _ => .pure (same_done.mpr he) id
    refine .bind (agree_typeText hg) fun r r' hr => .pure (same_more.mpr ?_) fun h => ⟨h, rfl⟩
    simp_all [Same, bare]

theorem agree_precedence (hg : Agrees fork g g') (level : Nat) :
    Agree fork True 0 n (precedence g level) (precedence g' level) :=
  .bind (agree_unary hg) fun _ _ he =>
    (agree_binaryRest hg level he).keep fun h => ⟨trivial, h⟩

theorem agree_rangeMark : Agree fork True 0 n rangeMark rangeMark := by
  refine .onKind rfl rfl fun k => ?_
  split <;> exact agree_pure _

theorem agree_range (hg : Agrees fork g g') : Agree fork True 0 n (range g) (range g') := by
  have hlast {m : Nat} : Agree fork True 0 m (optionalExpr (precedence g BinaryOp.lowest))
      (optionalExpr (precedence g' BinaryOp.lowest)) :=
    agree_optionalExpr (agree_precedence hg _)
  refine .bind agree_rangeMark fun m m' hm => ?_
  obtain rfl : m = m' := hm
  cases m with
  | some inclusive =>
    refine .advance fun _ _ _ _ _ => .bind hlast fun e e' he => .pure ?_ fun h => ?_
    · simp_all [Same, bare]
    · simp_all [clear]
  | none =>
    refine .bind (agree_precedence hg _) fun first first' hfirst => ?_
    refine .bind agree_rangeMark fun m m' hm => ?_
    obtain rfl : m = m' := hm
    cases m with
    | some inclusive =>
      refine .advance fun _ _ _ _ _ => .bind hlast fun e e' he => .pure ?_ fun h => ?_
      · simp_all [Same, bare]
      · simp_all [clear]
    | none => exact .pure hfirst fun h => ⟨⟨⟨trivial, rfl⟩, h⟩, rfl⟩

theorem agree_assignRest (hg : Agrees fork g g') {e e' : Expr} (he : Same e e') :
    Agree fork (clear e = true) 0 n (assignRest g e) (assignRest g' e') := by
  refine .onKind rfl rfl fun k => .ite (fun _ => ?_) fun _ => ?_
  · refine .advance fun _ _ _ _ _ => .bind hg.expression fun v v' hv => .pure ?_ fun h => ?_
    · simp_all [Same, bare]
    · simp_all [clear]
  · split
    · refine .advance fun _ _ _ _ _ => .bind hg.expression fun v v' hv => .pure ?_ fun h => ?_
      · simp_all [Same, bare]
      · simp_all [clear]
    · exact .pure he id

theorem agree_expression (hg : Agrees fork g g') :
    Agree fork True 0 n (expression g) (expression g') :=
  .bind (agree_range hg) fun _ _ he => (agree_assignRest hg he).keep fun h => ⟨trivial, h⟩

end RustLua.Parser
