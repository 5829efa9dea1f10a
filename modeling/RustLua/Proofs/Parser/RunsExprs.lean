import RustLua.Proofs.Parser.RunsPatterns

/-! # Runs of the productions: expressions

An expression may start with a block, and a condition that is missing leaves an `if` where it
was; what the grammar has to give there, before a token is taken, is a premise. A production
that reads its first token without asking for it is stated for that token. A macro call keeps
its arguments only if nothing was reported inside them. -/
namespace RustLua.Parser

open RustLua.Tree

variable {n : Nat} {tokens : List Token} {g : Grammar} {t : Token} {k : Token.Kind} {pos : Pos}

/-! ## Delimited expressions -/

theorem reads_condition (he : Reads n tokens t g.expression (PlacedExpr tokens)) :
    Reads n tokens t (condition g) (PlacedExpr tokens) :=
  .withNoStruct true he

theorem reads_arguments (hg : Sound n tokens g) (closer : Token.Kind) :
    Reads n tokens t (arguments g closer) (fun l => ∀ e ∈ l, PlacedExpr tokens e) :=
  .withNoStruct false (reads_commaList fun _ => hg.expression)

theorem reads_moreElements (hg : Sound n tokens g) (closer : Token.Kind) :
    Reads n tokens t (moreElements g closer) (fun l => ∀ e ∈ l, PlacedExpr tokens e) := by
  refine reads_collect fun acc _ => .ifAccept (by decide) (fun _ _ => ?_) fun _ => .done id
  refine .ifKind (fun _ => .pure id) fun _ => ?_
  exact hg.pred.expression.bind fun e _ => .pure forall_mem_concat

theorem reads_parenOrTuple (hg : Sound (n - 1) tokens g) (hk : t.kind = .parenOpen) :
    Reads n tokens t (parenOrTuple g) (PlacedExpr tokens) := by
  refine .ofSeen fun ht => .withNoStruct false (.expected hk (by decide) fun _ => ?_)
  have hpos := ht.stands (hk ▸ by decide)
  refine .ifAccept (by decide) (fun _ _ => .pure (.tuple hpos (by simp))) fun _ => ?_
  refine hg.expression.bind fun first _ => ?_
  refine .ifAccept (by decide) (fun _ _ => .pure (.paren hpos)) fun _ => ?_
  refine (reads_moreElements hg _).bind fun others _ => .pass (by decide) fun _ => .pure ?_
  exact fun ho hf => .tuple hpos (List.forall_mem_cons.mpr ⟨hf, ho⟩)

theorem reads_array (hg : Sound (n - 1) tokens g) (hk : t.kind = .bracketOpen) :
    Reads n tokens t (array g) (PlacedExpr tokens) := by
  refine .ofSeen fun ht => .withNoStruct false (.expected hk (by decide) fun _ => ?_)
  have hpos := ht.stands (hk ▸ by decide)
  refine .ifAccept (by decide) (fun _ _ => .pure (.array hpos (by simp) (by simp))) fun _ => ?_
  refine hg.expression.bind fun first _ => (reads_accept (by decide)).next fun _ _ => ?_
  refine .ite (fun _ => ?_) fun _ => ?_
  · refine hg.expression.bind fun length _ => .pass (by decide) fun _ => .pure ?_
    exact fun hl hf => .array hpos (by simpa using hf) (by simpa using hl)
  · refine (reads_moreElements hg _).bind fun others _ => .pass (by decide) fun _ => .pure ?_
    exact fun ho hf => .array hpos (List.forall_mem_cons.mpr ⟨hf, ho⟩) (by simp)

theorem reads_macroArguments (hg : Sound n tokens g) (closer : Token.Kind) :
    Reads n tokens t (macroArguments g closer) (fun l => ∀ e ∈ l, PlacedExpr tokens e) := by
  refine reads_collect fun acc _ => .unlessEnd (.done id) fun _ => hg.expression.bind fun e _ => ?_
  refine .ifAccept (by decide) (fun _ _ => .pure forall_mem_concat) fun _ => ?_
  exact .ifAccept (by decide) (fun _ _ => .pure forall_mem_concat) fun _ => .done forall_mem_concat

theorem closerOf_ne_eof (k : Token.Kind) : closerOf k ≠ .eof := by
  unfold closerOf
  split <;> decide

/-- Arguments are kept only if reading them was quiet; else the parser is back where it
started, in front of an opening delimiter. In both cases it ends behind that. -/
theorem takes_macroGroup (hg : Sound (n - 1) tokens g) {path : List Bytes}
    {Q : Expr → Prop} (hk : t.kind ≠ .eof)
    (hQ : ∀ args isOpaque, (∀ e ∈ args, PlacedExpr tokens e) → Q (.macroCall path args isOpaque pos)) :
    RunsAt n tokens t (macroGroup g path pos) (fun _ => true) Q := by
  rintro s rfl hs
  obtain ⟨rest, hl⟩ := State.exists_cons hk
  have hfirst := (runsAt_advance (n := n) hk s rfl hs).2 _ _ (advance_cons hl)
  have hlt := hfirst.taken rfl
  obtain ⟨hends, hargs⟩ := reads_macroArguments hg (closerOf s.current.kind) _ rfl
    (hfirst.moved.ahead.trans hs)
  have heq (r : Option (List Expr × State)) (hr : macroArguments g (closerOf s.current.kind)
      { s with ahead := rest, previous := s.current.kind } = r) :
      macroGroup g path pos s = r.bind fun (args, stop) =>
        (if stop.current.kind = closerOf s.current.kind ∧ stop.bag.count = s.bag.count then do
          let _ ← advance
          return .macroCall path args false pos
        else do
          rewind s
          skipBalanced
          return .macroCall path [] true pos : Parser Expr) stop := by
    change (advance s).bind _ = _
    rw [advance_cons hl]
    change (macroArguments g (closerOf s.current.kind) _).bind _ = _
    rw [hr]
    rfl
  cases hm : macroArguments g (closerOf s.current.kind)
      { s with ahead := rest, previous := s.current.kind } with
  | none =>
    refine ⟨fun hn => ?_, fun e u hr => by cases (heq _ hm).symm.trans hr⟩
    obtain ⟨r, hr⟩ := hends (by omega)
    cases hm.symm.trans hr
  | some r =>
    obtain ⟨args, stop⟩ := r
    have hstop := hargs args stop hm
    have hmoved := hfirst.moved.trans hstop.moved
    rw [heq _ hm, Option.bind_some]
    dsimp only
    split
    · rename_i hc
      have hquiet : stop.bag = s.bag := hmoved.bag_eq hc.2
      have hclose : RunsAt (stop.ahead.length + 1) tokens stop.current
          (advance >>= fun _ => pure (.macroCall path args false pos)) (fun _ => true) Q :=
        .take (hc.1 ▸ closerOf_ne_eof _) fun _ => .pure (hQ args false (hstop.quiet hquiet))
      obtain ⟨hcloseEnds, hcloses⟩ := hclose stop rfl (hmoved.ahead.trans hs)
      refine ⟨fun _ => hcloseEnds (Nat.lt_succ_self _), fun e u hr => ?_⟩
      have hu := hcloses e u hr
      refine ⟨hmoved.trans hu.moved, fun _ => ?_, fun h => ?_, fun hb => hu.quiet (hb.trans hquiet.symm)⟩
      · exact Nat.lt_of_lt_of_le (hu.taken rfl) hmoved.ahead.length_le
      · exact hu.inPlace (hstop.inPlace (hfirst.inPlace h))
    · rw [hmoved.rewind_bind]
      have hskipped : RunsAt n tokens s.current
          (skipBalanced >>= fun _ => pure (.macroCall path [] true pos)) (fun _ => true) Q :=
        (takes_skipBalanced hk).past fun _ _ => .pure fun _ => hQ [] true (by simp)
      exact hskipped s rfl hs

/-- The first token is of this kind. -/
def Sees (k : Token.Kind) (l : List Token) : Prop := (l.headD beyond).kind = k

/-- A macro call stands here: an exclamation mark, and behind it an opening delimiter. -/
def AtMacro (l : List Token) : Prop := Sees .bang l ∧ opens (l.getD 1 beyond).kind = true

theorem ne_eof_of_opens (h : opens k = true) : k ≠ .eof := by
  rintro rfl
  cases h

/-- The exclamation mark is taken, and the delimiter that was seen behind it is current. -/
theorem macroCall_eq {s : State} (hm : AtMacro s.ahead) (g : Grammar) (path : List Bytes) (pos : Pos) :
    ∃ bang rest, s.ahead = bang :: rest ∧ bang.kind = .bang ∧ (rest.headD beyond).kind ≠ .eof ∧
      macroCall g path pos s =
        (macroGroup g path pos { s with ahead := rest, previous := bang.kind, noStruct := false }).map
          fun (e, u) => (e, { u with noStruct := s.noStruct }) := by
  obtain ⟨hbang, hopens⟩ := hm
  cases hl : s.ahead with
  | nil =>
    rw [hl] at hbang
    cases hbang
  | cons bang rest =>
    rw [hl] at hbang hopens
    rw [List.getD_cons_succ] at hopens
    have hhead : rest.getD 0 beyond = rest.headD beyond := by cases rest <;> rfl
    refine ⟨bang, rest, rfl, hbang, hhead ▸ ne_eof_of_opens hopens, ?_⟩
    change ((expect .bang { s with noStruct := false }).bind _).bind _ = _
    rw [expect_cons (s := { s with noStruct := false }) hl hbang]
    change (macroGroup g path pos _).bind _ = _
    cases macroGroup g path pos
      { s with ahead := rest, previous := bang.kind, noStruct := false } <;> rfl

theorem macroCall_past_opener {s : State} (hm : AtMacro s.ahead)
    (hg : Sound (n - 2) s.ahead g) (path : List Bytes) (pos : Pos) (hs : s.ahead.length < n) :
    ∃ e u, macroCall g path pos s = some (e, u) ∧ u.ahead.length + 2 ≤ s.ahead.length := by
  obtain ⟨bang, rest, hl, -, hopener, heq⟩ := macroCall_eq hm g path pos
  obtain ⟨hends, hreach⟩ := takes_macroGroup (n := n - 1) (Q := fun _ => True) hg hopener
    (fun _ _ _ => trivial) { s with ahead := rest, previous := bang.kind, noStruct := false } rfl
    ⟨[bang], hl.symm⟩
  have hlength := congrArg List.length hl
  rw [List.length_cons] at hlength
  obtain ⟨⟨e, u⟩, hr⟩ := hends (by change rest.length < n - 1; omega)
  refine ⟨e, _, by rw [heq, hr]; rfl, ?_⟩
  have htaken : u.ahead.length < rest.length := (hreach e u hr).taken rfl
  change u.ahead.length + 2 ≤ _
  omega

theorem runsFrom_macroCall {s : State} (hm : AtMacro s.ahead) (hg : Sound (n - 1) tokens g)
    {path : List Bytes} {Q : Expr → Prop}
    (hQ : ∀ args isOpaque, (∀ e ∈ args, PlacedExpr tokens e) → Q (.macroCall path args isOpaque pos)) :
    RunsFrom n tokens s (macroCall g path pos) (fun _ => false) Q := by
  intro hs
  obtain ⟨bang, rest, hl, hbang, hopener, heq⟩ := macroCall_eq hm g path pos
  have hfirst : Reaches tokens (fun _ => true) (fun _ => True) s bang
      { s with ahead := rest, previous := bang.kind } := by
    have hcurrent : s.current = bang := by rw [State.current, hl]; rfl
    have htake : RunsAt n tokens bang advance (fun _ => true) (fun a => a = bang) :=
      runsAt_advance (hbang ▸ by decide)
    exact { (htake s hcurrent hs).2 _ _ (advance_cons hl) with quiet := fun _ => trivial }
  have hlt := hfirst.taken rfl
  obtain ⟨hends, hreach⟩ := takes_macroGroup hg.pred hopener hQ
    { s with ahead := rest, previous := bang.kind, noStruct := false } rfl
    (hfirst.moved.ahead.trans hs)
  refine ⟨fun hn => ?_, fun e u hr => ?_⟩
  · obtain ⟨⟨e, u⟩, hr⟩ := hends (by change rest.length < _ at hlt; change rest.length < _; omega)
    exact ⟨_, by rw [heq, hr]; rfl⟩
  · rw [heq] at hr
    obtain ⟨⟨_, x⟩, hgroup, he⟩ := Option.map_eq_some_iff.mp hr
    cases he
    obtain ⟨hm, -, hplace, hquiet⟩ := hreach e x hgroup
    refine ⟨⟨hm.ahead.trans hfirst.moved.ahead, hm.reports, rfl⟩,
      (fun h => absurd h Bool.false_ne_true), fun h => ?_, hquiet⟩
    obtain ⟨htraced, hending⟩ := hplace ⟨(hfirst.inPlace h).traced, (hfirst.inPlace h).ending⟩
    exact ⟨htraced, hending⟩

theorem RunsAt.onMacro {p q : Parser Expr} {Q : Expr → Prop}
    (hp : ∀ s : State, AtMacro s.ahead → RunsFrom n tokens s p (fun _ => false) Q)
    (hq : Reads n tokens t q Q) :
    Reads n tokens t
      (check .bang >>= fun b => peekKind 1 >>= fun k => if b && opens k then p else q) Q := by
  intro s hc
  have heq : (check .bang >>= fun b => peekKind 1 >>= fun k => if b && opens k then p else q) s =
      (if (decide (s.current.kind = .bang) && opens (s.peek 1).kind) = true then p else q) s := rfl
  refine .congr heq ?_
  split
  · rename_i hat
    rw [Bool.and_eq_true, decide_eq_true_iff] at hat
    exact hp s hat
  · exact hq s hc

theorem placed_shorthand (ht : t ∈ tokens) (hp : Stands tokens t.pos)
    (hk : t.kind = .ident ∨ t.kind = .intLit) :
    PlacedField tokens (.mk t.literal (.path [t.literal] t.pos)) := by
  rcases hk with hk | hk
  · refine .value ⟨t, ht, .inl hk, rfl⟩ (.path hp ⟨by simp, ?_⟩)
    intro s hs
    rw [List.mem_singleton.mp hs]
    exact ⟨t, ht, by rw [hk]; rfl, rfl⟩
  · exact .index hp ht hk

theorem reads_structFields (hg : Sound (n - 1) tokens g) :
    Reads n tokens t (structFields g) (fun l => ∀ f ∈ l, PlacedField tokens f) := by
  refine reads_collect fun acc name => .ofSeen fun ht => .unlessEnd (.done id) fun _ => ?_
  refine .ifAccept (by decide) (fun hdots _ => ?_) fun _ => .onCurrent ?_
  · refine hg.expression.bind fun value _ => .pure fun hv => forall_mem_concat ?_
    exact .base ⟨name, ht (hdots ▸ by decide), hdots⟩ hv
  refine .ite (fun hname => ?_) fun _ => (reads_report _).reported fun _ _ => .done trivial
  have hne : name.kind ≠ .eof := by
    rcases hname with h | h <;> rw [h] <;> decide
  refine .take hne fun _ => (reads_accept (by decide)).next fun _ _ => ?_
  extract_lets rest
  have hrest (value : Expr) (t' : Token) : Reads (n - 1) tokens t' (rest value) (fun r =>
      PlacedField tokens (.mk name.literal value) → (∀ f ∈ acc, PlacedField tokens f) →
        r.Collects (PlacedField tokens)) :=
    .ifAccept (by decide) (fun _ _ => .pure forall_mem_concat) fun _ => .pure forall_mem_concat
  refine .ite (fun _ => hg.expression.bind fun value _ => ?_) fun _ => ?_
  · exact (hrest value _).mono fun _ h hv => h (.value ⟨name, ht hne, hname, rfl⟩ hv)
  · exact (hrest _ _).mono fun _ h => h (placed_shorthand (ht hne) (ht.stands hne) hname)

theorem reads_structLiteral (hg : Sound (n - 1) tokens g) (hpos : Stands tokens pos)
    (path : List Bytes) :
    Reads n tokens t (structLiteral g path pos)
      (fun e => Segments tokens path → PlacedExpr tokens e) := by
  refine .withNoStruct false (.pass (by decide) fun _ => (reads_structFields hg).bind fun _ _ => ?_)
  exact .pass (by decide) fun _ => .pure fun hf hs => .structLit hpos hs hf

theorem reads_pathExpr (hg : Sound (n - 1) tokens g) (hk : t.kind ≠ .eof) :
    Reads n tokens t (pathExpr g) (PlacedExpr tokens) := by
  refine .ofSeen fun ht => .onCurrent (reads_path.bind fun segments _ => ?_)
  have hpos := ht.stands hk
  refine .onMacro (fun s hm => runsFrom_macroCall hm hg fun args isOpaque ha hs => ?_) ?_
  · exact .macroCall hpos hs.1 ha
  · refine .onCheck (.onGet fun _ _ => .ite (fun _ => ?_) fun _ => .pure fun hs => .path hpos hs.1)
    exact (reads_structLiteral hg hpos segments).mono fun _ h hs => h hs.1

/-! ## Control flow -/

theorem reads_blockExpr (hb : Reads n tokens t g.block (PlacedBlock tokens))
    (hpos : Stands tokens pos) (isUnsafe : Bool) (label : Bytes) :
    Reads n tokens t (blockExpr g isUnsafe label pos) (PlacedExpr tokens) :=
  hb.bind fun _ _ => .pure (.block hpos)

/-- A block whose position is that of its brace. -/
theorem reads_bareBlock (hg : Sound n tokens g) :
    Reads n tokens t (blockExpr g false [] t.pos) (PlacedExpr tokens) :=
  .ofSeen fun ht => hg.block.bind fun _ _ => .pure fun hb =>
    .block (ht.stands (hb.1 ▸ by decide)) hb.2

/-- What follows an `if`. Only behind `else` is a token sure to have been taken. -/
theorem reads_afterIf (hg : Sound (n - 1) tokens g)
    (he : ∀ {t}, Reads n tokens t g.expression (PlacedExpr tokens))
    (hb : ∀ {t}, Reads n tokens t g.block (PlacedBlock tokens)) :
    Reads n tokens t (do
      let cond ← condition g
      let body ← g.block
      if ← accept .kwElse then
        if ← check .kwIf then return .ifElse cond body (some (← g.ifElse)) pos
        else
          let pos' := (← current).pos
          return .ifElse cond body (some (.block (← g.block) false [] pos')) pos
      else return .ifElse cond body none pos)
      (fun e => Stands tokens pos → PlacedExpr tokens e ∧ isElseBranch e = true) := by
  refine (reads_condition he).bind fun cond _ => hb.bind fun body _ => ?_
  refine .ifAccept (by decide) (fun _ t' => ?_) fun _ => ?_
  · refine .ifKind (fun _ => ?_) fun _ => .onCurrent ?_
    · refine hg.ifElse.bind fun e _ => .pure fun he hb hc hpos => ⟨.ifElse hpos hc hb ?_ ?_, rfl⟩
      · simpa using he.1
      · simpa using he.2
    · refine .ofSeen fun ht' => hg.block.bind fun b _ => .pure fun ho hb hc hpos => ?_
      refine ⟨.ifElse hpos hc hb ?_ ?_, rfl⟩
      · simpa using .block (ht'.stands (ho.1 ▸ by decide)) ho.2
      · simp [isElseBranch]
  · exact .pure fun hb hc hpos => ⟨.ifElse hpos hc hb (by simp) (by simp), rfl⟩

theorem reads_ifElse (hg : Sound (n - 1) tokens g)
    (he : ∀ {t}, Reads n tokens t g.expression (PlacedExpr tokens))
    (hb : ∀ {t}, Reads n tokens t g.block (PlacedBlock tokens)) :
    Reads n tokens t (ifElse g) (fun e => PlacedExpr tokens e ∧ isElseBranch e = true) := by
  refine .ofSeen fun ht => .expect (by decide) (fun hk _ => ?_) fun _ => ?_
  · exact (reads_afterIf hg.pred hg.expression hg.body).mono fun _ h => h (ht.stands (hk ▸ by decide))
  · exact (reads_afterIf hg he hb).mono fun _ _ => trivial

/-- The same at an `if`, which is taken. -/
theorem reads_ifElse_there (hg : Sound (n - 1) tokens g) (hk : t.kind = .kwIf) :
    Reads n tokens t (ifElse g) (fun e => PlacedExpr tokens e ∧ isElseBranch e = true) := by
  refine .ofSeen fun ht => .expected hk (by decide) fun _ => ?_
  exact (reads_afterIf hg.pred hg.expression hg.body).mono fun _ h => h (ht.stands (hk ▸ by decide))

theorem reads_labelledLoop (hg : Sound (n - 1) tokens g) (label : Bytes) :
    Reads n tokens t (labelledLoop g label) (PlacedExpr tokens) := by
  refine .ofSeen fun ht => .onCurrent ?_
  split
  · rename_i hk
    have hne : t.kind ≠ .eof := hk ▸ by decide
    refine .take hne fun _ => (reads_condition hg.expression).bind fun cond _ => ?_
    exact hg.body.bind fun _ _ => .pure fun hb hc => .whileLoop (ht.stands hne) hc hb
  · rename_i hk
    have hne : t.kind ≠ .eof := hk ▸ by decide
    exact .take hne fun _ => hg.body.bind fun _ _ => .pure (.loop (ht.stands hne))
  · rename_i hk
    have hne : t.kind ≠ .eof := hk ▸ by decide
    refine .take hne fun _ => (reads_topPattern hg).bind fun p _ => .pass (by decide) fun _ => ?_
    refine (reads_condition hg.expression).bind fun iterated _ => hg.body.bind fun _ _ => .pure ?_
    exact fun hb hi hp => .forLoop (ht.stands hne) hp hi hb
  · exact (reads_report _).reported fun _ _ => .pure trivial

/-- A round that does not go on with as many tokens as there were before. -/
def Guarded {α β : Type} (before : Nat) (p : Parser (Step α β)) : Prop :=
  ∀ s x u, p s = some (.more x, u) → u.ahead.length ≠ before

section Guarded

variable {α β σ : Type} {before : Nat}

theorem Guarded.next {p : Parser σ} {f : σ → Parser (Step α β)}
    (h : ∀ a, Guarded before (f a)) : Guarded before (p >>= f) := by
  intro s x u hr
  obtain ⟨⟨a, y⟩, _, hf⟩ := Option.bind_eq_some_iff.mp hr
  exact h a y x u hf

theorem Guarded.ite {c : Prop} [Decidable c] {p q : Parser (Step α β)} (hp : Guarded before p)
    (hq : Guarded before q) : Guarded before (if c then p else q) := by
  split
  · exact hp
  · exact hq

theorem guarded_done (b : β) : Guarded before (pure (.done b) : Parser (Step α β)) :=
  fun _ _ _ hr => by cases hr

theorem guarded_compare (b : β) (a : α) :
    Guarded before (do
      if (← get).ahead.length = before then return .done b else return .more a) := by
  intro s x u hr
  change (if s.ahead.length = before then return .done b else return .more a :
    Parser (Step α β)) s = _ at hr
  split at hr
  · cases hr
  · cases hr
    assumption

/-- Such a round takes a token if it goes on. -/
theorem RunsAt.guarded {f : State → Parser (Step α β)} {Q : Step α β → Prop}
    (hguard : ∀ s : State, Guarded s.ahead.length (f s)) (h : ∀ s, Reads n tokens t (f s) Q) :
    RunsAt n tokens t (get >>= f) Step.isMore Q := by
  intro s hc hs
  obtain ⟨hends, hreach⟩ := h s s hc hs
  refine ⟨hends, fun r u hr => { hreach r u hr with taken := fun hmore => ?_ }⟩
  cases r with
  | more x => exact Nat.lt_of_le_of_ne (hreach _ u hr).moved.ahead.length_le (hguard s s x u hr)
  | done b => cases hmore

end Guarded

theorem reads_matchArms (hg : Sound n tokens g) :
    Reads n tokens t (matchArms g) (fun l => ∀ a ∈ l, PlacedArm tokens a) := by
  refine reads_collect fun acc _ => .unlessEnd (.done id) fun _ => .guarded (fun s => ?_) fun s => ?_
  · refine .next fun _ => .next fun p => .next fun _ => ?_
    extract_lets rest
    have hrest (guard : Option Expr) : Guarded s.ahead.length (rest guard) := by
      refine .next fun _ => .next fun t => ?_
      extract_lets hasBlock tail
      have htail (body : Expr) : Guarded s.ahead.length (tail body) := by
        refine .next fun _ => .next fun _ => .ite ?_ (guarded_compare _ _)
        exact .next fun _ => .next fun _ => guarded_done _
      exact .ite (.next htail) (.next htail)
    exact .ite (.next hrest) (hrest none)
  · refine reads_skipAttributes.next fun _ _ => (reads_topPattern hg).bind fun p _ => ?_
    refine (reads_accept (by decide)).next fun _ _ => ?_
    extract_lets rest
    have hrest (guard : Option Expr) (t' : Token) : Reads n tokens t' (rest guard) (fun r =>
        (∀ e ∈ guard, PlacedExpr tokens e) → PlacedPattern tokens p →
          (∀ a ∈ acc, PlacedArm tokens a) → r.Collects (PlacedArm tokens)) := by
      refine .pass (by decide) fun _ => .onCurrent ?_
      extract_lets hasBlock tail
      have htail (body : Expr) (t' : Token) : Reads n tokens t' (tail body) (fun r =>
          PlacedExpr tokens body → (∀ e ∈ guard, PlacedExpr tokens e) → PlacedPattern tokens p →
            (∀ a ∈ acc, PlacedArm tokens a) → r.Collects (PlacedArm tokens)) := by
        have harm : PlacedExpr tokens body → (∀ e ∈ guard, PlacedExpr tokens e) →
            PlacedPattern tokens p → (∀ a ∈ acc, PlacedArm tokens a) →
              ∀ a ∈ acc ++ [.mk p guard body], PlacedArm tokens a :=
          fun hb hgd hp hacc => forall_mem_concat (.mk hp hgd hb) hacc
        refine (reads_accept (by decide)).next fun _ _ => .onCheck (.ite (fun _ => ?_) fun _ => ?_)
        · exact .onCurrent ((reads_report _).reported fun _ _ => .pure trivial)
        · exact .onGet fun _ _ => .ite (fun _ => .pure harm) fun _ => .pure harm
      exact .ite (fun _ => (reads_bareBlock hg).bind htail) fun _ => hg.expression.bind htail
    refine .ite (fun _ => hg.expression.optional.bind hrest) fun _ => ?_
    exact (hrest none _).mono fun _ h => h (by simp)

theorem reads_matchOn (hg : Sound (n - 1) tokens g) (hk : t.kind = .kwMatch) :
    Reads n tokens t (matchOn g) (PlacedExpr tokens) := by
  refine .ofSeen fun ht => .expected hk (by decide) fun _ => ?_
  refine (reads_condition hg.expression).bind fun scrutinee _ => .withNoStruct false ?_
  refine .pass (by decide) fun _ => (reads_matchArms hg).bind fun arms _ => .pass (by decide) fun _ => ?_
  exact .pure fun ha hs => .matchOn (ht.stands (hk ▸ by decide)) hs ha

/-- A block may be the first thing in an expression, its brace not yet taken. -/
def Braces (n : Nat) (tokens : List Token) (g : Grammar) : Prop :=
  ∀ {t : Token}, t.kind = .braceOpen → Reads n tokens t g.block (PlacedBlock tokens)

/-- The kinds that start an expression with a block. -/
def blockKinds : List Token.Kind :=
  [.kwIf, .kwWhile, .kwLoop, .kwFor, .kwMatch, .braceOpen, .kwUnsafe, .lifetime]

theorem reads_blockLike (hg : Sound (n - 1) tokens g) (hb : Braces n tokens g)
    (hk : t.kind ∈ blockKinds) : Reads n tokens t (blockLike g) (PlacedExpr tokens) := by
  refine .ofSeen fun ht => .onCurrent ?_
  split
  case h_1 hk => exact (reads_ifElse_there hg hk).mono fun _ he => he.1
  case h_5 hk => exact reads_matchOn hg hk
  case h_6 hk =>
    have hne : t.kind ≠ .eof := hk ▸ by decide
    exact .take hne fun _ => reads_blockExpr hg.body (ht.stands hne) _ _
  case h_7 hk =>
    have hne : t.kind ≠ .eof := hk ▸ by decide
    refine .take hne fun _ => .pass (by decide) fun _ => .ifKind (fun _ => ?_) fun _ => ?_
    · exact reads_blockExpr hg.body (ht.stands hne) _ _
    · exact reads_labelledLoop hg.pred _
  case h_8 =>
    have hopen : t.kind = .braceOpen := by simp_all [blockKinds]
    exact reads_blockExpr (hb hopen) (ht.stands (hopen ▸ by decide)) _ _
  all_goals exact reads_labelledLoop hg _

/-! ## Closures -/

theorem reads_closureParam (hg : Sound n tokens g) :
    Reads n tokens t (closureParam g) (PlacedParam tokens) := by
  refine .onCurrent (hg.pattern.bind fun p _ => (reads_accept (by decide)).next fun _ _ => ?_)
  extract_lets rest
  have hrest (type : Option TypeText) (t' : Token) : Reads n tokens t' (rest type)
      (fun q => (∀ x ∈ type, IsText tokens x.text) → PlacedPattern tokens p →
        PlacedParam tokens q) := .pure .plain
  exact reads_optionalType hg hrest

/-- Behind the token that starts them. -/
theorem takes_closureParams (hg : Sound (n - 1) tokens g) (hk : t.kind = .pipe ∨ t.kind = .orOr) :
    RunsAt n tokens t (closureParams g) (fun _ => true) (fun l => ∀ p ∈ l, PlacedParam tokens p) := by
  refine .ifAccept (by decide) (fun _ _ => .pure (by simp)) fun hor => ?_
  refine .expected (hk.resolve_right hor) (by decide) fun _ => ?_
  refine (reads_commaList fun _ => reads_closureParam hg).bind fun _ _ => .pass (by decide) fun _ => ?_
  exact .pure id

theorem reads_closureParams (hg : Sound n tokens g) :
    Reads n tokens t (closureParams g) (fun l => ∀ p ∈ l, PlacedParam tokens p) := by
  refine .ifAccept (by decide) (fun _ _ => .pure (by simp)) fun _ => .pass (by decide) fun _ => ?_
  refine (reads_commaList fun _ => reads_closureParam hg).bind fun _ _ => .pass (by decide) fun _ => ?_
  exact .pure id

theorem reads_closure (hg : Sound (n - 1) tokens g)
    (hk : t.kind = .kwMove ∨ t.kind = .pipe ∨ t.kind = .orOr) :
    Reads n tokens t (closure g) (PlacedExpr tokens) := by
  refine .ofSeen fun ht => .onCurrent ?_
  have hpos : Stands tokens t.pos := by
    refine ht.stands ?_
    rcases hk with h | h | h <;> rw [h] <;> decide
  have hbody (params : List Param) (isMove : Bool) (t' : Token) : Reads (n - 1) tokens t' (do
      if ← accept .arrow then
        let _ ← typeText g
        let pos := (← current).pos
        return Expr.closure params (← blockExpr g false [] pos) isMove t.pos
      else return .closure params (← g.expression) isMove t.pos)
      (fun e => (∀ p ∈ params, PlacedParam tokens p) → PlacedExpr tokens e) := by
    refine .ifAccept (by decide) (fun _ _ => ?_) fun _ => ?_
    · refine (reads_typeText hg.pred).next fun _ _ => .onCurrent ?_
      exact (reads_bareBlock hg.pred).bind fun _ _ => .pure fun hb hq => .closure hpos hq hb
    · exact hg.expression.bind fun _ _ => .pure fun hb hq => .closure hpos hq hb
  refine .onAccept (by decide) (fun _ _ => ?_) fun hmove => ?_
  · exact (reads_closureParams hg).bind fun _ => hbody _ _
  · exact (takes_closureParams hg (hk.resolve_left hmove)).past fun _ => hbody _ _

/-! ## Operands and operators -/

theorem reads_optionalExpr {p : Parser Expr} (hp : ∀ {t}, Reads n tokens t p (PlacedExpr tokens)) :
    Reads n tokens t (optionalExpr p) (fun o => ∀ e ∈ o, PlacedExpr tokens e) := by
  have hstarts : Reads n tokens t startsExpr (fun _ => True) := by
    refine .onGet fun s _ => ?_
    split <;> exact .pure trivial
  exact hstarts.next fun _ _ => .ite (fun _ => hp.optional) fun _ => .pure (by simp)

theorem reads_optionalLabel : Reads n tokens t optionalLabel (fun _ => True) := by
  refine .ifKind (fun hk => ?_) fun _ => .pure trivial
  exact .take (hk ▸ by decide) fun _ => .pure trivial

theorem reads_literalExpr {kind : LiteralKind} (hk : literalKind? t.kind = some kind) :
    Reads n tokens t (literalExpr kind) (PlacedExpr tokens) := by
  have hne := ne_eof_of_some hk rfl
  refine .ofSeen fun ht => .take hne fun _ => .pure (.lit (ht.stands hne) ?_)
  exact ⟨t, ht hne, hk, rfl⟩

theorem reads_primary (hg : Sound (n - 1) tokens g) (hb : Braces n tokens g) :
    Reads n tokens t (primary g) (PlacedExpr tokens) := by
  refine .ofSeen fun ht => .onCurrent ?_
  split
  case h_1 hk | h_2 hk | h_3 hk | h_4 hk | h_5 hk | h_6 hk | h_7 hk =>
    exact reads_literalExpr (by rw [hk]; rfl)
  case h_8 hk | h_9 hk | h_10 hk | h_11 hk | h_12 hk | h_13 hk =>
    exact reads_pathExpr hg (hk ▸ by decide)
  case h_14 hk => exact reads_parenOrTuple hg hk
  case h_15 hk => exact reads_array hg hk
  case h_16 hk | h_17 hk | h_18 hk | h_19 hk | h_20 hk | h_21 hk | h_22 hk | h_23 hk =>
    exact reads_blockLike hg hb (by rw [hk]; decide)
  case h_24 hk | h_25 hk | h_26 hk => exact reads_closure hg (by simp [hk])
  case h_27 hk =>
    have hne : t.kind ≠ .eof := hk ▸ by decide
    refine .take hne fun _ => (reads_topPattern hg).bind fun p _ => .pass (by decide) fun _ => ?_
    exact (hg.precedence _).bind fun _ _ => .pure fun hv hp => .letCond (ht.stands hne) hp hv
  case h_28 hk =>
    have hne : t.kind ≠ .eof := hk ▸ by decide
    refine .take hne fun _ => (reads_optionalExpr hg.expression).bind fun _ _ => ?_
    exact .pure (.returnWith (ht.stands hne))
  case h_29 hk =>
    have hne : t.kind ≠ .eof := hk ▸ by decide
    refine .take hne fun _ => reads_optionalLabel.next fun _ _ => ?_
    exact (reads_optionalExpr hg.expression).bind fun _ _ => .pure (.breakOut (ht.stands hne))
  case h_30 hk =>
    have hne : t.kind ≠ .eof := hk ▸ by decide
    refine .take hne fun _ => reads_optionalLabel.next fun _ _ => ?_
    exact .pure (.continueOn (ht.stands hne))
  case h_31 => exact reads_takeReported (.inl rfl)

theorem placed_foldl_field {e : Expr} {names : List Bytes} (he : PlacedExpr tokens e)
    (hpos : Stands tokens pos) (hn : ∀ name ∈ names, IsMember tokens name) :
    PlacedExpr tokens (names.foldl (fun e f => .field e f pos) e) := by
  induction names generalizing e with
  | nil => exact he
  | cons name names ih =>
    obtain ⟨hname, hrest⟩ := List.forall_mem_cons.mp hn
    exact ih (.field hpos he hname) hrest

theorem reads_member (hg : Sound n tokens g) (base : Expr) :
    Reads n tokens t (member g base) (fun r => PlacedExpr tokens base → PlacedExpr tokens r.1) := by
  refine .ofSeen fun ht => .onCurrent ?_
  split
  · rename_i hk
    have hne : t.kind ≠ .eof := hk ▸ by decide
    refine .take hne fun name => ?_
    extract_lets rest
    have hrest (u : Unit) (t' : Token) : Reads (n - 1) tokens t' (rest u)
        (fun r => PlacedExpr tokens base → PlacedExpr tokens r.1) := by
      refine .ifAccept (by decide) (fun _ _ => ?_) fun _ => ?_
      · refine (reads_arguments hg.pred.pred _).bind fun args _ => .pass (by decide) fun _ => .pure ?_
        exact fun ha hb => .methodCall hb.stands hb ⟨t, ht hne, .inl hk, rfl⟩ ha
      · exact .pure fun hb => .field hb.stands hb (.inl ⟨t, ht hne, .inl hk, rfl⟩)
    refine .onCheck (.onPeek fun _ => .ite (fun hsep => ?_) fun _ => hrest () _)
    have hsep : name.kind ≠ .eof := by
      rw [of_decide_eq_true (Bool.and_eq_true_iff.mp hsep).1]
      decide
    exact .take hsep fun _ => reads_skipAngles.next fun _ t' => (hrest () t').pred
  · rename_i hk
    have hne : t.kind ≠ .eof := hk ▸ by decide
    refine .take hne fun _ => .pure fun hb => .field hb.stands hb ?_
    exact .inl ⟨t, ht hne, .inr hk, rfl⟩
  · rename_i hk
    have hne : t.kind ≠ .eof := hk ▸ by decide
    refine .take hne fun _ => .pure fun hb => placed_foldl_field hb hb.stands fun f hf => ?_
    exact .inr ⟨t, ht hne, hk, hf⟩
  · exact (reads_report _).reported fun _ _ => .pure trivial

theorem reads_postfixOps (hg : Sound (n - 1) tokens g) (operand : Expr) :
    Reads n tokens t (postfixOps g operand)
      (fun e => PlacedExpr tokens operand → PlacedExpr tokens e) := by
  refine reads_loop (I := PlacedExpr tokens) (fun e t => .onKind ?_) operand
  split
  · rename_i hk
    refine .take (hk ▸ by decide) fun _ => (reads_arguments hg _).bind fun args _ => ?_
    exact .pass (by decide) fun _ => .pure fun ha he => .call he.stands he ha
  · rename_i hk
    have hoffset : RunsAt n tokens t (withNoStruct false do
        let _ ← advance
        let offset ← g.expression
        let _ ← expect .bracketClose
        return offset) (fun _ => true) (PlacedExpr tokens) := by
      refine .withNoStruct false (.take (hk ▸ by decide) fun _ => ?_)
      exact hg.expression.bind fun offset _ => .pass (by decide) fun _ => .pure id
    exact hoffset.past fun _ _ => .pure fun ho he => .index he.stands he ho
  · rename_i hk
    refine .take (hk ▸ by decide) fun _ => (reads_member hg e).bind fun r _ => ?_
    exact .ite (fun _ => .pure id) fun _ => .pure id
  · rename_i hk
    exact .take (hk ▸ by decide) fun _ => .pure fun he => .tryOp he.stands he
  · exact .done id

theorem reads_unary (hg : Sound (n - 1) tokens g) (hb : Braces n tokens g) :
    Reads n tokens t (unary g) (PlacedExpr tokens) := by
  refine .ofSeen fun ht => .onCurrent ?_
  split
  · rename_i op hop
    have hne := ne_eof_of_some hop rfl
    exact .take hne fun _ => hg.unary.bind fun _ _ => .pure (.unary (ht.stands hne))
  · split
    · rename_i hk
      have hne : t.kind ≠ .eof := hk ▸ by decide
      refine .take hne fun _ => (reads_accept (by decide)).next fun _ _ => ?_
      exact hg.unary.bind fun _ _ => .pure (.ref (ht.stands hne))
    · rename_i hk
      have hne : t.kind ≠ .eof := hk ▸ by decide
      refine .take hne fun _ => (reads_accept (by decide)).next fun _ _ => ?_
      exact hg.unary.bind fun _ _ => .pure (.doubleRef (ht.stands hne))
    · exact (reads_primary hg hb).bind fun _ _ => reads_postfixOps hg _

theorem ofKind?_binaryOp {op : BinaryOp} (h : BinaryOp.ofKind? k = some op) : op.kind = k := by
  simpa using List.find?_some h

theorem ofKind?_assignOp {op : AssignOp} (h : AssignOp.ofKind? k = some op) : op.kind = k := by
  simpa using List.find?_some h

theorem reads_binaryRest (hg : Sound (n - 1) tokens g) (level : Nat) (operand : Expr) :
    Reads n tokens t (binaryRest g level operand)
      (fun e => PlacedExpr tokens operand → PlacedExpr tokens e) := by
  refine reads_loop (I := PlacedExpr tokens) (fun e t => .ofSeen fun ht => .onKind ?_) operand
  split
  · rename_i op hop
    have hne := ne_eof_of_some hop rfl
    refine .ite (fun _ => .take hne fun _ => ?_) fun _ => .done id
    refine (hg.precedence _).bind fun _ _ => .pure fun hr hl => ?_
    exact .binary hl.stands ⟨t, ht hne, (ofKind?_binaryOp hop).symm⟩ hl hr
  · refine .ite (fun hk => .take (hk.1 ▸ by decide) fun _ => ?_) fun _ => .done id
    exact (reads_typeText hg).bind fun _ _ => .pure fun ht he => .cast he.stands ht he

theorem reads_precedence (hg : Sound (n - 1) tokens g) (hb : Braces n tokens g) (level : Nat) :
    Reads n tokens t (precedence g level) (PlacedExpr tokens) :=
  (reads_unary hg hb).bind fun _ _ => reads_binaryRest hg _ _

/-- Only a range operator is a range mark. -/
theorem RunsAt.onRangeMark {f : Option Bool → Parser Expr} {Q : Expr → Prop}
    (hsome : ∀ inclusive, t.kind ≠ .eof → Reads n tokens t (f (some inclusive)) Q)
    (hnone : Reads n tokens t (f none) Q) : Reads n tokens t (rangeMark >>= f) Q := by
  rw [rangeMark, bind_assoc]
  refine .onKind ?_
  split
  · rename_i hk
    exact hsome false (hk ▸ by decide)
  · rename_i hk
    exact hsome true (hk ▸ by decide)
  · exact hnone

theorem reads_range (hg : Sound (n - 1) tokens g) (hb : Braces n tokens g) :
    Reads n tokens t (range g) (PlacedExpr tokens) := by
  have hlast {t : Token} := reads_optionalExpr (t := t) (reads_precedence hg hb BinaryOp.lowest)
  refine .ofSeen fun ht => .onRangeMark (fun inclusive hne => ?_) ?_
  · refine .take hne fun _ => hlast.pred.bind fun _ _ => .pure fun hl => ?_
    exact .range (ht.stands hne) (by simp) hl
  · refine (reads_precedence hg hb _).bind fun left _ => .onRangeMark (fun inclusive hne => ?_) ?_
    · refine .take hne fun _ => hlast.pred.bind fun _ _ => .pure fun hl hf => ?_
      exact .range hf.stands (by simpa using hf) hl
    · exact .pure id

theorem reads_assignRest (hg : Sound (n - 1) tokens g) (left : Expr) :
    Reads n tokens t (assignRest g left) (fun e => PlacedExpr tokens left → PlacedExpr tokens e) := by
  refine .ofSeen fun ht => .onKind (.ite (fun hk => ?_) fun _ => ?_)
  · refine .take (hk ▸ by decide) fun _ => hg.expression.bind fun _ _ => .pure ?_
    exact fun hv hl => .assign hl.stands hl hv
  · split
    · rename_i op hop
      have hne := ne_eof_of_some hop rfl
      refine .take hne fun _ => hg.expression.bind fun _ _ => .pure fun hv hl => ?_
      exact .assignOp hl.stands ⟨t, ht hne, (ofKind?_assignOp hop).symm⟩ hl hv
    · exact .pure id

theorem reads_expression (hg : Sound (n - 1) tokens g) (hb : Braces n tokens g) :
    Reads n tokens t (expression g) (PlacedExpr tokens) :=
  (reads_range hg hb).bind fun _ _ => reads_assignRest hg _

end RustLua.Parser
