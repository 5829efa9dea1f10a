import RustLua.Proofs.Parser.Placed
import RustLua.Proofs.Parser.Runs

/-! # Runs of the productions: types, paths and patterns

One statement for each production, about a grammar that is sound on as many tokens as it is
called with. Most calls of the grammar stand behind a token that the production has taken
(`Sound (n - 1)`); the others are premises of their own. -/
namespace RustLua.Parser

open RustLua.Tree

/-- A grammar whose entry points end on fewer than `n` tokens, keep everything in its place and
give placed trees in quiet runs. A quiet block starts at its brace. -/
structure Sound (n : Nat) (tokens : List Token) (g : Grammar) : Prop where
  expression : ∀ {t}, Reads n tokens t g.expression (PlacedExpr tokens)
  precedence : ∀ {t} level, Reads n tokens t (g.precedence level) (PlacedExpr tokens)
  unary : ∀ {t}, Reads n tokens t g.unary (PlacedExpr tokens)
  primary : ∀ {t}, Reads n tokens t g.primary (PlacedExpr tokens)
  ifElse : ∀ {t}, Reads n tokens t g.ifElse (fun e => PlacedExpr tokens e ∧ isElseBranch e = true)
  block : ∀ {t}, Reads n tokens t g.block (fun b => t.kind = .braceOpen ∧ PlacedBlock tokens b)
  item : ∀ {t}, Reads n tokens t g.item (fun o => ∀ i ∈ o, PlacedItem tokens i)
  pattern : ∀ {t}, Reads n tokens t g.pattern (PlacedPattern tokens)
  skipType : ∀ {t}, Reads n tokens t g.skipType (fun _ => True)

variable {n : Nat} {tokens : List Token} {g : Grammar} {t : Token}

theorem Sound.pred (h : Sound n tokens g) : Sound (n - 1) tokens g :=
  ⟨h.expression.pred, fun level => (h.precedence level).pred, h.unary.pred, h.primary.pred,
    h.ifElse.pred, h.block.pred, h.item.pred, h.pattern.pred, h.skipType.pred⟩

theorem Sound.body (h : Sound n tokens g) : Reads n tokens t g.block (PlacedBlock tokens) :=
  h.block.mono fun _ hb => hb.2

/-! ## Skipping -/

theorem runsFrom_skip {s : State} {i : Nat} {w : Unit → Bool}
    (hi : ∀ t ∈ s.ahead.take i, t.kind ≠ .eof)
    (hw : w () = true → 0 < i ∧ s.current.kind ≠ .eof) :
    RunsFrom n tokens s (skip i) w (fun _ => True) := by
  intro _
  obtain ⟨x, hx, hahead, hbag, hflag⟩ := skip_eq_some i s
  refine ⟨fun _ => ⟨_, hx⟩, fun a u hr => ?_⟩
  cases hx.symm.trans hr
  refine ⟨moves_skip i s () x hx, fun h => ?_, fun h => h.drop hi hahead hbag, fun _ => trivial⟩
  obtain ⟨hpos, hk⟩ := hw h
  obtain ⟨rest, hl⟩ := State.exists_cons hk
  rw [hahead, List.length_drop, hl, List.length_cons]
  omega

theorem reads_skipBalanced : Reads n tokens t skipBalanced (fun _ => True) :=
  fun s _ => runsFrom_skip (balancedWidth_ne_eof 0 s.ahead) nofun

/-- A group has at least its opening token. -/
theorem takes_skipBalanced (hk : t.kind ≠ .eof) :
    RunsAt n tokens t skipBalanced (fun _ => true) (fun _ => True) := by
  rintro s rfl
  obtain ⟨rest, hl⟩ := State.exists_cons hk
  exact runsFrom_skip (balancedWidth_ne_eof 0 s.ahead) fun _ => ⟨hl ▸ balancedWidth_pos hk, hk⟩

theorem reads_recover : Reads n tokens t recover (fun _ => True) :=
  fun s _ => runsFrom_skip (recoveryWidth_ne_eof s.ahead) nofun

theorem runsAt_skipAngles {w : Unit → Bool} (hw : w () = true → t.kind = .less) :
    RunsAt n tokens t skipAngles w (fun _ => True) := by
  rintro s rfl hs
  have hskip : RunsFrom n tokens s (skip (anglesWidth 0 s.ahead).1) w (fun _ => True) := by
    refine runsFrom_skip (anglesWidth_ne_eof 0 s.ahead) fun h => ?_
    have hless := hw h
    obtain ⟨rest, hl⟩ := State.exists_cons (s := s) (hless ▸ by decide)
    exact ⟨hl ▸ anglesWidth_pos hless, hless ▸ by decide⟩
  have hcut (t' : Token) : Reads n tokens t'
      (if (anglesWidth 0 s.ahead).2 then report .openGenerics else pure ()) (fun _ => True) :=
    .ite (fun _ => (reads_report _).mono fun _ _ => trivial) fun _ => .pure trivial
  obtain ⟨hends, hreach⟩ := hskip.bind (fun _ t' => (hcut t').weaken) hs
  refine ⟨hends, fun a u hr => ?_⟩
  -- what follows the skip takes nothing
  obtain ⟨⟨⟨⟩, x⟩, hx, hr'⟩ := Option.bind_eq_some_iff.mp
    (show (skip (anglesWidth 0 s.ahead).1 s).bind _ = _ from hr)
  have hrun := (hskip hs).2 () x hx
  refine { hreach a u hr with taken := fun h => ?_ }
  exact Nat.lt_of_le_of_lt ((hcut _ x rfl (hrun.moved.ahead.trans hs)).2 a u hr').moved.ahead.length_le
    (hrun.taken h)

theorem reads_skipAngles : Reads n tokens t skipAngles (fun _ => True) := runsAt_skipAngles nofun

theorem reads_skipAttributes : Reads n tokens t skipAttributes (fun _ => True) := by
  refine reads_skipLoop fun _ _ => .ifAccept (by decide) (fun _ _ => ?_) fun _ => .done trivial
  refine (reads_accept (by decide)).next fun _ _ => .ifKind (fun _ => ?_) fun _ => .onCurrent ?_
  · exact reads_skipBalanced.next fun _ _ => .pure trivial
  · exact (reads_report _).next fun _ _ => .pure trivial

theorem reads_skipWhere : Reads n tokens t skipWhere (fun _ => True) := by
  refine .ifAccept (by decide) (fun _ _ => reads_skipLoop fun _ _ => .onKind ?_) fun _ => .pure trivial
  split
  case h_4 hk => exact (runsAt_skipAngles fun _ => hk).past fun _ _ => .pure fun _ => trivial
  case h_5 heof _ => exact .take heof fun _ => .pure trivial
  all_goals exact .done trivial

theorem reads_skipToSemicolon (overBraces : Bool) :
    Reads n tokens t (skipToSemicolon overBraces) (fun _ => True) := by
  refine reads_skipLoop fun _ _ => .onKind ?_
  split
  case h_3 heof =>
    refine .ite (fun _ => ?_) fun _ => ?_
    · exact (takes_skipBalanced heof).past fun _ _ => .pure fun _ => trivial
    · exact .take heof fun _ => .pure trivial
  all_goals exact .done trivial

theorem reads_textOf {p : Parser Unit} {P : Unit → Prop} (h : Reads n tokens t p P) :
    Reads n tokens t (textOf p) (IsText tokens) := by
  intro s hc hs
  have hrun : Reads n tokens t (do
      p
      return tokenText false (s.ahead.take (s.ahead.length - (← get).ahead.length)))
      (IsText tokens) :=
    h.next fun _ _ => .onGet fun _ _ =>
      .pure ⟨_, (List.take_prefix _ s.ahead).isInfix.trans hs.isInfix, rfl⟩
  exact hrun s hc hs

/-! ## Types -/

theorem reads_skipTypePath (hg : Sound (n - 1) tokens g) :
    Reads n tokens t (skipTypePath g) (fun _ => True) := by
  refine (reads_accept (by decide)).next fun _ _ => reads_skipLoop fun _ _ => .onKind ?_
  refine .ite (fun hk => .take (ne_eof_of_startsSegment hk) fun _ => .onKind ?_) fun _ => .onCurrent ?_
  · extract_lets rest
    have hrest (u : Unit) (t' : Token) : Reads (n - 1) tokens t' (rest u) (fun _ => True) := by
      refine .ifAccept (by decide) (fun _ _ => ?_) fun _ => .pure trivial
      refine .ifKind (fun _ => reads_skipAngles.next fun _ _ => ?_) fun _ => .pure trivial
      exact .ifAccept (by decide) (fun _ _ => .pure trivial) fun _ => .pure trivial
    split
    · exact reads_skipAngles.next hrest
    · refine reads_skipBalanced.next fun _ _ => (reads_accept (by decide)).next fun _ _ => ?_
      exact .ite (fun _ => hg.skipType.next hrest) fun _ => hrest () _
    · exact hrest () _
  · exact (reads_report _).next fun _ _ => .done trivial

theorem reads_skipBounds (hg : Sound (n - 1) tokens g) :
    Reads n tokens t (skipBounds g) (fun _ => True) := by
  refine reads_skipLoop fun _ _ => (reads_accept (by decide)).next fun _ _ => ?_
  extract_lets rest
  have hrest (u : Unit) (t' : Token) : RunsAt n tokens t' (rest u) Step.isMore (fun _ => True) :=
    .ifAccept (by decide) (fun _ _ => .pure trivial) fun _ => .done trivial
  refine (reads_accept (by decide)).next fun _ _ => .ite (fun _ => hrest () _) fun _ => ?_
  exact (reads_skipTypePath hg).next hrest

theorem reads_skipFnQualifiers : Reads n tokens t skipFnQualifiers (fun _ => True) := by
  refine reads_skipLoop fun _ _ => .onKind ?_
  split
  case h_4 => exact .done trivial
  all_goals
    rename_i hk
    exact .take (hk ▸ by decide) fun _ => .pure trivial

theorem reads_skipType (hg : Sound (n - 1) tokens g) :
    Reads n tokens t (skipType g) (fun _ => True) := by
  refine .onCurrent ?_
  split
  case h_1 hk | h_2 hk =>
    refine .take (hk ▸ by decide) fun _ => (reads_accept (by decide)).next fun _ _ => ?_
    exact (reads_accept (by decide)).next fun _ _ => hg.skipType
  case h_3 hk =>
    refine .take (hk ▸ by decide) fun _ => (reads_accept (by decide)).next fun _ _ => ?_
    exact .ite (fun _ => hg.skipType) fun _ => .pass (by decide) fun _ => hg.skipType
  case h_4 | h_5 => exact reads_skipBalanced
  case h_6 hk | h_7 hk => exact .take (hk ▸ by decide) fun _ => .pure trivial
  case h_8 | h_9 | h_10 =>
    refine reads_skipFnQualifiers.next fun _ _ => .pass (by decide) fun _ => ?_
    extract_lets rest
    have hrest (u : Unit) (t' : Token) : Reads n tokens t' (rest u) (fun _ => True) :=
      .ifAccept (by decide) (fun _ _ => hg.skipType) fun _ => .pure trivial
    exact .ifKind (fun _ => reads_skipBalanced.next hrest) fun _ => hrest () _
  case h_11 hk => exact .take (hk ▸ by decide) fun _ => reads_skipBounds hg.pred
  case h_12 =>
    refine reads_skipAngles.next fun _ _ => .ifAccept (by decide) (fun _ _ => ?_) fun _ => .pure trivial
    exact reads_skipTypePath hg.pred
  case h_13 hk =>
    refine .ite (fun _ => ?_) fun _ => reads_skipTypePath hg
    exact .take (hk ▸ by decide) fun _ => reads_skipBounds hg.pred
  case h_19 => exact (reads_report _).mono fun _ _ => trivial
  all_goals exact reads_skipTypePath hg

theorem reads_typeText (hg : Sound n tokens g) :
    Reads n tokens t (typeText g) (fun x => IsText tokens x.text) :=
  .onCurrent ((reads_textOf hg.skipType).bind fun _ _ => .pure id)

theorem reads_optionalType (hg : Sound n tokens g) {c : Prop} [Decidable c] {α : Type}
    {f : Option TypeText → Parser α} {Q : α → Prop} (hf : ∀ type t', Reads n tokens t' (f type)
      (fun a => (∀ x ∈ type, IsText tokens x.text) → Q a)) :
    Reads n tokens t (if c then some <$> typeText g >>= f else f none) Q :=
  .ite (fun _ => (reads_typeText hg).optional.bind hf) fun _ => (hf none t).mono fun _ h => h (by simp)

/-! ## Paths -/

/-- Segments of which this token is the first. -/
structure SegmentsFrom (tokens : List Token) (t : Token) (path : List Bytes) : Prop
    extends Segments tokens path where
  mem : t ∈ tokens
  head : path.head? = some t.literal

/-- What has been read of a path that starts at `first`: nothing yet, or its first segments. -/
def PathRead (tokens : List Token) (first : Token) (path : List Bytes) (t : Token) : Prop :=
  path = [] ∧ t = first ∨ SegmentsFrom tokens first path

theorem PathRead.grow {first : Token} {path : List Bytes} (ht : t ∈ tokens)
    (hk : startsSegment t.kind = true) (h : PathRead tokens first path t) :
    SegmentsFrom tokens first (path ++ [t.literal]) := by
  have hlast : IsSegment tokens t.literal := ⟨t, ht, hk, rfl⟩
  rcases h with ⟨rfl, rfl⟩ | h
  · exact ⟨⟨by simp, forall_mem_concat hlast (by simp)⟩, ht, rfl⟩
  · refine ⟨⟨by simp, forall_mem_concat hlast h.each⟩, h.mem, ?_⟩
    rw [List.head?_append, h.head]
    rfl

theorem reads_segments :
    Reads n tokens t (loop pathRound []) (SegmentsFrom tokens t) := by
  refine (reads_rounds (I := PathRead tokens t) (fun path t' => ?_) []).mono fun _ h => h (.inl ⟨rfl, rfl⟩)
  refine .ofSeen fun ht => .onCurrent (.ite (fun hk => ?_) fun _ => ?_)
  · have hne := ne_eof_of_startsSegment hk
    have hmore : PathRead tokens t path t' → ∀ t'', PathRead tokens t (path ++ [t'.literal]) t'' :=
      fun h _ => .inr (h.grow (ht hne) hk)
    have hdone : PathRead tokens t path t' → SegmentsFrom tokens t (path ++ [t'.literal]) :=
      PathRead.grow (ht hne) hk
    refine .take hne fun _ => .ifAccept (by decide) (fun _ _ => ?_) fun _ => .pure hdone
    refine .ifKind (fun _ => reads_skipAngles.next fun _ _ => ?_) fun _ => .pure hmore
    exact .ifAccept (by decide) (fun _ _ => .pure hmore) fun _ => .pure hdone
  · exact (reads_report _).reported fun _ _ => .done trivial

/-- A path of one segment that starts with a name is that name. -/
theorem reads_path :
    Reads n tokens t path (fun l => Segments tokens l ∧
      (t.kind = .ident → ∀ name, l = [name] → IsName tokens name)) := by
  refine .onAccept (by decide) (fun hk _ => ?_) fun _ => ?_
  · exact reads_segments.mono fun _ hl => ⟨hl.toSegments, fun h => absurd (hk.symm.trans h) (by decide)⟩
  · refine reads_segments.mono fun l hl => ⟨hl.toSegments, fun hk name hname => ?_⟩
    have hhead := hl.head
    rw [hname] at hhead
    exact ⟨t, hl.mem, .inl hk, (Option.some.inj hhead).symm⟩

/-! ## Patterns -/

theorem reads_patternLiteral (hk : t.kind ≠ .eof)
    (hp : ∀ {t}, Reads n tokens t g.primary (PlacedExpr tokens)) :
    Reads n tokens t (patternLiteral g) (fun l => PlacedPattern tokens (.lit l)) := by
  refine .ofSeen fun ht => .onCurrent ((reads_accept (by decide)).bind fun _ _ => hp.bind fun e _ => ?_)
  split
  · refine .pure fun he hminus => ?_
    cases he with
    | lit hpos hl =>
      split
      · rename_i h
        exact .negative (ht.stands hk) hl ⟨t, ht hk, hminus h⟩
      · exact .lit hpos hl
  · exact (reads_reportAt (ht hk) _).reported fun _ _ => .pure trivial

theorem reads_finishBinding (hg : Sound (n - 1) tokens g) (p : Pattern) :
    Reads n tokens t (finishBinding g p) (fun q => q = p) :=
  .ifAccept (by decide) (fun _ _ => hg.pattern.next fun _ _ => .pure rfl) fun _ => .pure rfl

theorem reads_topPattern (hg : Sound n tokens g) :
    Reads n tokens t (topPattern g) (PlacedPattern tokens) := by
  refine (reads_accept (by decide)).next fun _ _ => hg.pattern.bind fun first _ => ?_
  refine .ifKind (fun _ => ?_) fun _ => .pure id
  refine (reads_collect (P := PlacedPattern tokens) fun acc _ => ?_).bind fun others _ =>
    .pure fun ho hf => .either hf ho
  refine .ifAccept (by decide) (fun _ _ => ?_) fun _ => .done id
  exact hg.pred.pattern.bind fun p _ => .pure forall_mem_concat

theorem reads_patternElements (hg : Sound n tokens g) (closer : Token.Kind) :
    Reads n tokens t (patternElements g closer) (fun r => ∀ p ∈ r.1, PlacedPattern tokens p) := by
  refine (reads_loop (I := fun r => ∀ p ∈ r.1, PlacedPattern tokens p) (fun acc _ => ?_)
    ([], false)).mono fun _ h => h (by simp)
  refine .unlessEnd (.done id) fun _ => (reads_topPattern hg).bind fun p _ => ?_
  exact .ifAccept (by decide) (fun _ _ => .pure forall_mem_concat) fun _ => .done forall_mem_concat

theorem reads_tuplePattern (hg : Sound (n - 1) tokens g) (hk : t.kind ≠ .eof) :
    Reads n tokens t (tuplePattern g) (PlacedPattern tokens) := by
  refine .ofSeen fun ht => .take hk fun _ => ?_
  extract_lets closer
  have hc : closer ≠ .eof := by
    simp only [closer]
    split <;> decide
  refine (reads_patternElements hg closer).bind fun r _ => .pass hc fun _ => ?_
  split
  · refine .pure fun he => ?_
    split
    · exact he _ (by simp_all)
    · exact .tuple (ht.stands hk) fun p hp => he p (by simp_all)
  · exact .pure fun he => .tuple (ht.stands hk) he

theorem reads_pathPattern (hg : Sound (n - 1) tokens g) (hk : t.kind ≠ .eof) :
    Reads n tokens t (pathPattern g) (PlacedPattern tokens) := by
  refine .ofSeen fun ht => .onCurrent (reads_path.bind fun segments _ => .onKind ?_)
  have hpos := ht.stands hk
  split
  · rename_i hopen
    refine .take (hopen ▸ by decide) fun _ => ?_
    refine (reads_commaList fun _ => reads_topPattern hg).bind fun elems _ => .pass (by decide) fun _ => ?_
    exact .pure fun he hs => .applied hpos hs.1 he
  · exact reads_skipBalanced.next fun _ _ => .pure fun hs => .applied hpos hs.1 (by simp)
  · split
    · refine .ite (fun hident => ?_) fun _ => .pure fun hs => .path hpos hs.1
      exact (reads_finishBinding hg _).mono fun _ hq hs => hq ▸ .ident hpos (hs.2 hident _ rfl)
    · exact .pure fun hs => .path hpos hs.1

theorem reads_pattern (hg : Sound (n - 1) tokens g)
    (hp : ∀ {t}, Reads n tokens t g.primary (PlacedExpr tokens)) :
    Reads n tokens t (pattern g) (PlacedPattern tokens) := by
  refine .ofSeen fun ht => .onCurrent ?_
  split
  case h_1 hk =>
    have hne : t.kind ≠ .eof := hk ▸ by decide
    exact .take hne fun _ => .pure (.wild (ht.stands hne) (.inl ⟨t, ht hne, hk⟩))
  case h_2 hk =>
    have hne : t.kind ≠ .eof := hk ▸ by decide
    exact .take hne fun _ => .pure (.wild (ht.stands hne) (.inr ⟨t, ht hne, hk⟩))
  case h_3 hk =>
    have hne : t.kind ≠ .eof := hk ▸ by decide
    refine .take hne fun _ => (reads_accept (by decide)).next fun _ _ => .named fun _ => ?_
    exact .pure fun hn => .ident (ht.stands hne) hn
  case h_4 hk =>
    have hne : t.kind ≠ .eof := hk ▸ by decide
    refine .take hne fun name => .ofSeen fun hseen => .onCurrent (.ite (fun hname => ?_) fun _ => ?_)
    · have hne' : name.kind ≠ .eof := by
        rcases hname with h | h <;> rw [h] <;> decide
      refine .take hne' fun _ => (reads_finishBinding hg.pred.pred _).mono fun _ hq => ?_
      exact hq ▸ .ident (ht.stands hne) ⟨name, hseen hne', hname, rfl⟩
    · exact (reads_report _).reported fun _ _ => .pure trivial
  case h_5 hk | h_6 hk =>
    have hne : t.kind ≠ .eof := hk ▸ by decide
    refine .take hne fun _ => (reads_accept (by decide)).next fun _ _ => ?_
    exact hg.pattern.bind fun _ _ => .pure (.ref (ht.stands hne))
  case h_7 hk | h_8 hk => exact reads_tuplePattern hg (hk ▸ by decide)
  case h_17 hk | h_18 hk | h_19 hk | h_20 hk | h_21 hk | h_22 hk =>
    exact reads_pathPattern hg (hk ▸ by decide)
  case h_23 => exact reads_takeReported (.inr rfl)
  all_goals
    rename_i hk
    refine (reads_patternLiteral (hk ▸ by decide) hp).bind fun l t' => ?_
    extract_lets rest
    have hrest (u : Unit) (t' : Token) : Reads n tokens t' (rest u)
        (fun p => PlacedPattern tokens (.lit l) → PlacedPattern tokens p) := .pure id
    refine .onCheck (.onCheck (.ite (fun hdots => ?_) fun _ => hrest () t'))
    have hdots : t'.kind ≠ .eof := by
      rcases Bool.or_eq_true_iff.mp hdots with h | h <;> rw [of_decide_eq_true h] <;> decide
    refine .take hdots fun t₃ => .onKind (.ite (fun hlit => ?_) fun _ => (hrest () t₃).pred)
    have hlit : t₃.kind ≠ .eof := by
      intro heof
      rw [heof] at hlit
      cases hlit
    exact (reads_patternLiteral hlit hp.pred).next fun _ t' => (hrest () t').pred

end RustLua.Parser
