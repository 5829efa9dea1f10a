import RustLua.Proofs.Parser.Agreement
import RustLua.Proofs.Parser.DelimiterRules

/-! # Agreement on skipped groups, types, paths and patterns

Skipping reads ahead without a bound, so its width is compared in both lists: it is the
same unless it goes beyond the common words. -/
namespace RustLua.Parser

open RustLua.Tree Result

variable {α β : Type} {fork : Fork} {K : Prop} {c n : Nat} {s t : State} {g g' : Grammar}

/-! ## Skipping -/

/-- What is shown of two runs, where that they move is known. -/
theorem Agree.ofMoves [Result α] {p q : Parser α} (hm : Moves p) (hk : K)
    (h : ∀ s a u t b v, p s = some (a, u) → u.bag = s.bag →
      fork.left.length + n ≤ u.ahead.length → Alike fork s t → q t = some (b, v) →
      v.bag = t.bag ∧ Same a b ∧ Alike fork u v) : Agree fork K 0 n p q := by
  intro s a u hr
  refine ⟨hm s a u hr, fun hb => ⟨(hm s a u hr).ahead.length_le, fun _ => hk, ?_⟩⟩
  intro hn _ t b v hst hv
  exact h s a u t b v hr hb hn hst hv

theorem Alike.skip {m : Nat} {u v : State} (h : Alike fork s t)
    (hm : fork.left.length + m ≤ s.ahead.length) (hu : Parser.skip m s = some ((), u))
    (hv : Parser.skip m t = some ((), v)) : Alike fork u v := by
  induction m generalizing s t with
  | zero =>
    cases hu
    cases hv
    exact h
  | succ m ih =>
    rcases h.next with ⟨k, l, r, i, j, x, y, hx, hy, hnext⟩ | ⟨hx, -⟩
    · obtain ⟨⟨_, w⟩, hadv, hu⟩ := Option.bind_eq_some_iff.mp hu
      obtain ⟨⟨_, w'⟩, hadv', hv⟩ := Option.bind_eq_some_iff.mp hv
      rw [advance_cons hx] at hadv
      rw [advance_cons hy] at hadv'
      cases hadv
      cases hadv'
      rw [hx, List.length_cons] at hm
      exact ih hnext (by change _ ≤ x.length; omega) hu hv
    · rw [hx] at hm
      omega

/-- Two states go on alike behind a skip of the same width, which must not reach beyond the
common tokens. -/
theorem Alike.skipped {w w' m : Nat} {u v : State} (h : Alike fork s t)
    (hu : Parser.skip w s = some ((), u)) (hv : Parser.skip w' t = some ((), v))
    (hn : fork.left.length + m ≤ u.ahead.length)
    (hw : fork.left.length + w ≤ s.ahead.length → w' = w) (hle : w ≤ s.ahead.length) :
    v.bag = t.bag ∧ Alike fork u v := by
  obtain ⟨u', hu', hahead, -, -⟩ := skip_eq_some w s
  rw [hu] at hu'
  cases hu'
  rw [hahead, List.length_drop] at hn
  have hw := hw (by omega)
  subst hw
  obtain ⟨v', hv', -, hbag, -⟩ := skip_eq_some w' t
  rw [hv] at hv'
  cases hv'
  exact ⟨hbag, h.skip (by omega) hu hv⟩

theorem balancedWidth_cons {a : Token} (ha : a.kind ≠ .eof) (depth : Nat) :
    ∃ inner, ∀ (b : Token) rest, b.kind = a.kind → balancedWidth depth (b :: rest) =
      if inner = 0 then 1 else 1 + balancedWidth inner rest := by
  refine ⟨if opens a.kind then depth + 1 else if closes a.kind then depth - 1 else depth, ?_⟩
  intro b rest hb
  rw [balancedWidth, hb, if_neg ha]

theorem balancedWidth_common {x y : List Token} (hw : x.map Token.word = y.map Token.word)
    (depth : Nat) (h : balancedWidth depth (x ++ fork.left) ≤ x.length) :
    balancedWidth depth (y ++ fork.right) = balancedWidth depth (x ++ fork.left) := by
  induction x generalizing y depth with
  | nil =>
    -- the end is not the end of the file, so that a group would take it
    have hleft := fork.ender_left
    cases hl : fork.left with
    | nil => rw [hl] at hleft; cases hleft
    | cons a rest =>
      rw [hl] at hleft
      obtain ⟨inner, hinner⟩ := balancedWidth_cons (ender_ne_eof hleft) depth
      rw [hl, List.nil_append, hinner a rest rfl, List.length_nil] at h
      split at h <;> omega
  | cons a x ih =>
    cases y with
    | nil => cases hw
    | cons b y =>
      simp only [List.map_cons, List.cons.injEq] at hw
      have hk : b.kind = a.kind := congrArg Prod.fst hw.1.symm
      by_cases ha : a.kind = .eof
      · simp [balancedWidth, ha, hk]
      · obtain ⟨inner, hinner⟩ := balancedWidth_cons ha depth
        rw [List.cons_append, hinner a _ rfl, List.length_cons] at h
        rw [List.cons_append, List.cons_append, hinner a _ rfl, hinner b _ hk]
        by_cases hz : inner = 0
        · rw [if_pos hz, if_pos hz]
        · rw [if_neg hz] at h
          rw [if_neg hz, if_neg hz, ih hw.2 inner (by omega)]

theorem agree_skipBalanced : Agree fork True 0 n skipBalanced skipBalanced := by
  refine .ofMoves moves_skipBalanced trivial ?_
  intro s _ u t _ v hu _ hn hst hv
  obtain ⟨x, y, hx, hy, hw⟩ := hst.ahead
  have hwidth (hle : fork.left.length + balancedWidth 0 s.ahead ≤ s.ahead.length) :
      balancedWidth 0 t.ahead = balancedWidth 0 s.ahead := by
    rw [hx, hy]
    rw [hx, List.length_append] at hle
    exact balancedWidth_common hw 0 (by omega)
  have hskip := hst.skipped hu hv hn hwidth (balancedWidth_le_length 0 s.ahead)
  exact ⟨hskip.1, rfl, hskip.2⟩

theorem anglesWidth_common {x y : List Token} (hw : x.map Token.word = y.map Token.word)
    (depth : Nat) (hcut : (anglesWidth depth (x ++ fork.left)).2 = false)
    (h : (anglesWidth depth (x ++ fork.left)).1 ≤ x.length) :
    anglesWidth depth (y ++ fork.right) = anglesWidth depth (x ++ fork.left) := by
  induction x generalizing y depth with
  | nil =>
    -- at the end the arguments are cut short or go on
    have hleft := fork.ender_left
    cases hl : fork.left with
    | nil => rw [hl] at hleft; cases hleft
    | cons a rest =>
      rw [hl] at hleft
      rw [hl, List.nil_append] at hcut h
      by_cases ha : cutsAngles a.kind
      · rcases ha with ha | ha | ha
        · exact absurd ha (ender_ne_eof hleft)
        · simp [anglesWidth, ha] at hcut
        · simp [anglesWidth, ha] at hcut
      · obtain ⟨inner, -, hinner⟩ := anglesWidth_cons depth rest ha
        rw [hinner, List.length_nil] at h
        split at h <;> simp at h
  | cons a x ih =>
    cases y with
    | nil => cases hw
    | cons b y =>
      simp only [List.map_cons, List.cons.injEq] at hw
      have hk : b.kind = a.kind := congrArg Prod.fst hw.1.symm
      by_cases ha : cutsAngles a.kind
      · rcases ha with ha | ha | ha <;> simp [anglesWidth, ha, hk]
      · obtain ⟨inner, heq, hinner⟩ := anglesWidth_cons depth (x ++ fork.left) ha
        obtain ⟨inner', heq', hinner'⟩ := anglesWidth_cons depth (y ++ fork.right) (hk.symm ▸ ha)
        obtain rfl : inner' = inner := by rw [hk] at heq'; omega
        rw [List.cons_append, hinner] at hcut h
        rw [List.cons_append, List.cons_append, hinner, hinner']
        by_cases hz : inner' = 0
        · rw [if_pos hz, if_pos hz]
        · rw [if_neg hz] at hcut h
          rw [if_neg hz, if_neg hz, ih hw.2 inner' hcut (by simpa using h)]

theorem anglesWidth_le_length (depth : Nat) (tokens : List Token) :
    (anglesWidth depth tokens).1 ≤ tokens.length := by
  induction tokens generalizing depth with
  | nil => simp [anglesWidth]
  | cons t rest ih =>
    by_cases ht : cutsAngles t.kind
    · rcases ht with ht | ht | ht <;> simp [anglesWidth, ht]
    · obtain ⟨inner, -, hinner⟩ := anglesWidth_cons depth rest ht
      rw [hinner, List.length_cons]
      have hrest := ih inner
      split
      · simp
      · simp; omega

/-- A quiet run skips whole arguments. -/
theorem skipAngles_quiet {u : State} (h : skipAngles s = some ((), u)) (hb : u.bag = s.bag) :
    (anglesWidth 0 s.ahead).2 = false ∧ skip (anglesWidth 0 s.ahead).1 s = some ((), u) := by
  obtain ⟨v, hv, -, hbag, -⟩ := skip_eq_some (anglesWidth 0 s.ahead).1 s
  obtain ⟨⟨_, w⟩, hw, hr⟩ := Option.bind_eq_some_iff.mp
    (show (skip (anglesWidth 0 s.ahead).1 s).bind _ = _ from h)
  cases hv.symm.trans hw
  change (if (anglesWidth 0 s.ahead).2 = true then report .openGenerics else pure () :
    Parser Unit) v = _ at hr
  split at hr
  · exact ((loud_report _ _ _ _ hr).2 (hb.trans hbag.symm)).elim
  · rename_i hcut
    cases hr
    exact ⟨Bool.eq_false_iff.mpr hcut, hv⟩

theorem skipAngles_of_whole (h : (anglesWidth 0 s.ahead).2 = false) :
    skipAngles s = skip (anglesWidth 0 s.ahead).1 s := by
  change (skip (anglesWidth 0 s.ahead).1 s).bind (fun v =>
    (if (anglesWidth 0 s.ahead).2 = true then report .openGenerics else pure () :
      Parser Unit) v.2) = _
  obtain ⟨v, hv, -⟩ := skip_eq_some (anglesWidth 0 s.ahead).1 s
  rw [if_neg (by simp [h]), hv]
  rfl

theorem agree_skipAngles : Agree fork True 0 n skipAngles skipAngles := by
  refine .ofMoves moves_skipAngles trivial ?_
  intro s _ u t _ v hu hb hn hst hv
  obtain ⟨x, y, hx, hy, hw⟩ := hst.ahead
  obtain ⟨hcut, hu⟩ := skipAngles_quiet hu hb
  have hle := anglesWidth_le_length 0 s.ahead
  obtain ⟨u', hu', hahead, -, -⟩ := skip_eq_some (anglesWidth 0 s.ahead).1 s
  cases hu.symm.trans hu'
  have hcommon : anglesWidth 0 t.ahead = anglesWidth 0 s.ahead := by
    rw [hahead, List.length_drop] at hn
    rw [hx, hy]
    rw [hx] at hcut hn hle
    rw [List.length_append] at hn hle
    exact anglesWidth_common hw 0 hcut (by omega)
  rw [skipAngles_of_whole (by rw [hcommon, hcut]), hcommon] at hv
  have hskip := hst.skipped hu hv hn (fun _ => rfl) hle
  exact ⟨hskip.1, rfl, hskip.2⟩

theorem agree_skipAttributes : Agree fork True 0 n skipAttributes skipAttributes := by
  refine agree_skipLoop (.accept rfl (.inl rfl) ?_ (agree_pure _))
  refine .maybe rfl (.inl rfl) fun _ => .check (.inl rfl) fun _ => .ite (fun _ => ?_) fun _ => ?_
  · exact .bind agree_skipBalanced fun _ _ _ => .pure rfl fun _ => ⟨trivial, rfl⟩
  · exact .onAny fun _ _ => agree_report

theorem tokenText_common {x y : List Token} (hw : x.map Token.word = y.map Token.word)
    (afterWord : Bool) : tokenText afterWord x = tokenText afterWord y := by
  induction x generalizing y afterWord with
  | nil =>
    cases y with
    | nil => rfl
    | cons => cases hw
  | cons a x ih =>
    cases y with
    | nil => cases hw
    | cons b y =>
      simp only [List.map_cons, List.cons.injEq, Token.word, Prod.mk.injEq] at hw
      obtain ⟨⟨hkind, hliteral, hraw⟩, hw⟩ := hw
      simp only [tokenText, hkind, hliteral, hraw, ih hw]

/-- The tokens between two pairs of states that are alike have the same words. -/
theorem Alike.taken {u v : State} (h : Alike fork s t) (h' : Alike fork u v) :
    (s.ahead.take (s.ahead.length - u.ahead.length)).map Token.word =
      (t.ahead.take (t.ahead.length - v.ahead.length)).map Token.word := by
  obtain ⟨x, y, hx, hy, hw⟩ := h.ahead
  obtain ⟨x', y', hx', hy', hw'⟩ := h'.ahead
  have hxy : x.length = y.length := by simpa using congrArg List.length hw
  have hxy' : x'.length = y'.length := by simpa using congrArg List.length hw'
  have hleft : s.ahead.length - u.ahead.length = x.length - x'.length := by
    simp only [hx, hx', List.length_append]
    omega
  have hright : t.ahead.length - v.ahead.length = x.length - x'.length := by
    simp only [hy, hy', List.length_append]
    omega
  rw [hleft, hright, hx, hy, List.take_append_of_le_length (Nat.sub_le _ _),
    List.take_append_of_le_length (by omega), List.map_take, List.map_take, hw]

theorem agree_textOf {p q : Parser Unit} (h : Agree fork True 0 n p q) :
    Agree fork True 0 n (textOf p) (textOf q) := by
  intro s a u hr
  obtain ⟨⟨_, w⟩, hp, he⟩ := Option.bind_eq_some_iff.mp (show (p s).bind _ = _ from hr)
  cases he
  obtain ⟨hm, hq⟩ := h s () u hp
  refine ⟨hm, fun hb => ?_⟩
  obtain ⟨hl, hk, ha⟩ := hq hb
  refine ⟨hl, hk, fun hn _ t b v hst hv => ?_⟩
  obtain ⟨⟨_, w'⟩, hq', he⟩ := Option.bind_eq_some_iff.mp (show (q t).bind _ = _ from hv)
  cases he
  obtain ⟨hb', -, huv⟩ := ha hn rfl t () v hst hq'
  exact ⟨hb', tokenText_common (hst.taken huv) false, huv⟩

/-! ## Types -/

/-- Two grammars whose entry points agree. An item may end in a semicolon, so that there
must be more behind it. -/
structure Agrees (fork : Fork) (g g' : Grammar) : Prop where
  expression : ∀ {n}, Agree fork True 0 n g.expression g'.expression
  precedence : ∀ {n} level, Agree fork True 0 n (g.precedence level) (g'.precedence level)
  unary : ∀ {n}, Agree fork True 0 n g.unary g'.unary
  primary : ∀ {n}, Agree fork True 0 n g.primary g'.primary
  ifElse : ∀ {n}, Agree fork True 0 n g.ifElse g'.ifElse
  block : ∀ {n}, Agree fork True 0 n g.block g'.block
  item : ∀ {n}, 0 < n → Agree fork True 0 n g.item g'.item
  pattern : ∀ {n}, Agree fork True 0 n g.pattern g'.pattern
  skipType : ∀ {n}, Agree fork True 0 n g.skipType g'.skipType
  sound : ∀ {tokens}, Sound 0 tokens g'

/-- A sequence whose first result is plain. -/
theorem Agree.next [Result α] {p q : Parser Unit} {f f' : Unit → Parser α} {J : Prop}
    (hp : Agree fork J 0 (n + c) p q) (hf : Agree fork K c n (f ()) (f' ())) :
    Agree fork K c n (p >>= f) (q >>= f') :=
  .bind hp fun _ _ _ => hf.keep fun hk => ⟨hk, rfl⟩

/-- A sequence whose first part is left out unless a condition holds. -/
theorem Agree.iteNext [Result α] {b : Prop} [Decidable b] {p q : Parser Unit}
    {f f' : Unit → Parser α} {J : Prop} (hp : Agree fork J 0 (n + c) p q)
    (hf : Agree fork K c n (f ()) (f' ())) :
    Agree fork K c n (if b then p >>= f else f ()) (if b then q >>= f' else f' ()) :=
  .ite (fun _ => .next hp hf) fun _ => hf

theorem agree_skipTypePath (hg : Agrees fork g g') :
    Agree fork True 0 n (skipTypePath g) (skipTypePath g') := by
  refine .maybe rfl (.inl rfl) fun _ => agree_skipLoop (.onKind rfl rfl fun k => ?_)
  refine .ite (fun _ => .advance fun _ _ _ _ _ => .onKind rfl rfl fun k => ?_) fun _ => ?_
  · extract_lets rest
    have hrest : Agree fork True 0 n (rest ()) (rest ()) := by
      refine .accept rfl (.inl rfl) ?_ (agree_pure _)
      refine .check (.inl rfl) fun _ => .ite (fun _ => ?_) fun _ => agree_pure _
      exact .next agree_skipAngles (.accept rfl (.inl rfl) (agree_pure _) (agree_pure _))
    split
    · exact .next agree_skipAngles hrest
    · refine .next agree_skipBalanced ?_
      exact .accept rfl (.inl rfl) (.next hg.skipType hrest) hrest
    · exact hrest
  · exact .onAny fun _ _ => agree_report

theorem agree_skipBounds (hg : Agrees fork g g') :
    Agree fork True 0 n (skipBounds g) (skipBounds g') := by
  refine agree_skipLoop (.maybe rfl (.inl rfl) fun _ => ?_)
  suffices hrest : Agree fork True 0 n _ _ from
    .accept rfl (.inl rfl) hrest (.next (agree_skipTypePath hg) hrest)
  exact .accept rfl (.inl rfl) (agree_pure _) (agree_pure _)

theorem agree_skipFnQualifiers : Agree fork True 0 n skipFnQualifiers skipFnQualifiers := by
  refine agree_skipLoop (.onKind rfl rfl fun k => ?_)
  split
  case h_4 => exact agree_pure _
  all_goals exact .advance fun _ _ _ _ _ => agree_pure _

theorem agree_skipType (hg : Agrees fork g g') :
    Agree fork True 0 n (skipType g) (skipType g') := by
  refine .onCurrent (fun k l r i j => ?_) fun a b ha _ => ?_
  · dsimp only
    split
    case h_1 | h_2 =>
      refine .advance fun _ _ _ _ _ => .maybe rfl (.inl rfl) fun _ => ?_
      exact .maybe rfl (.inl rfl) fun _ => hg.skipType
    case h_3 =>
      refine .advance fun _ _ _ _ _ => .accept rfl (.inl rfl) hg.skipType ?_
      exact .expect rfl fun _ _ _ _ _ => hg.skipType
    case h_4 | h_5 => exact agree_skipBalanced
    case h_6 | h_7 => exact .advance fun _ _ _ _ _ => agree_pure _
    case h_8 | h_9 | h_10 =>
      refine .next agree_skipFnQualifiers (.expect rfl fun _ _ _ _ _ => ?_)
      refine .check (.inl rfl) fun _ => .iteNext agree_skipBalanced ?_
      exact .accept rfl (.inl rfl) hg.skipType (agree_pure _)
    case h_11 => exact .advance fun _ _ _ _ _ => agree_skipBounds hg
    case h_12 =>
      refine .next agree_skipAngles ?_
      exact .accept rfl (.inl rfl) (agree_skipTypePath hg) (agree_pure _)
    case h_13 =>
      refine .ite (fun _ => ?_) fun _ => agree_skipTypePath hg
      exact .advance fun _ _ _ _ _ => agree_skipBounds hg
    case h_19 => exact .loud (loud_report _)
    all_goals exact agree_skipTypePath hg
  · rcases ender_cases ha with ha | ha | ha <;> rw [ha]
    all_goals exact .loud (loud_report _)

theorem agree_typeText (hg : Agrees fork g g') :
    Agree fork True 0 n (typeText g) (typeText g') := by
  refine .onAny fun _ _ => .bind (agree_textOf hg.skipType) fun text text' htext => ?_
  obtain rfl : text = text' := htext
  exact .pure rfl fun _ => ⟨trivial, rfl⟩

/-! ## Paths -/

/-- A condition on plain results is the same for both. -/
theorem agree_pathRound (segments : List Bytes) :
    Agree fork True 0 n (pathRound segments) (pathRound segments) := by
  refine .onCurrent (fun k l r i j => .ite (fun _ => ?_) fun _ => agree_report) fun a b ha _ => ?_
  · refine .advance fun _ _ _ _ _ => .accept rfl (.inl rfl) ?_ (agree_pure _)
    refine .check (.inl rfl) fun _ => .ite (fun _ => ?_) fun _ => agree_pure _
    exact .next agree_skipAngles (.accept rfl (.inl rfl) (agree_pure _) (agree_pure _))
  · rcases ender_cases ha with ha | ha | ha <;> rw [ha]
    all_goals exact agree_report

theorem agree_path : Agree fork True 0 n path path := by
  refine .maybe rfl (.inl rfl) fun _ => (agree_loop (fun l l' hl => ?_) (.refl [])).keep
    fun _ => trivial
  obtain rfl : l = l' := hl
  exact (agree_pathRound l).keep fun _ => rfl

/-! ## Patterns -/

theorem Same.lit {l : Literal} {e : Expr} (h : Same (.lit l) e) : ∃ l', e = .lit l' ∧ Same l l' := by
  cases e with
  | lit l' => exact ⟨l', rfl, Expr.lit.inj h⟩
  | _ => cases h

theorem agree_patternLiteral (hg : Agrees fork g g') :
    Agree fork True 0 n (patternLiteral g) (patternLiteral g') := by
  refine .onAny fun a b => .maybe rfl (.inl rfl) fun negative => ?_
  refine .bind hg.primary fun e e' he => ?_
  cases e with
  | lit l =>
    obtain ⟨l', rfl, hl⟩ := he.lit
    refine .pure ?_ fun _ => ⟨trivial, rfl⟩
    cases negative with
    | false => exact hl
    | true => simp_all [Same, bare, Literal.bare]
  | _ => exact .loud ((loud_reportAt _ _).next fun _ => .pure _)

theorem agree_finishBinding (hg : Agrees fork g g') {p q : Pattern} (h : Same p q) :
    Agree fork True 0 n (finishBinding g p) (finishBinding g' q) := by
  refine .accept rfl (.inl rfl) ?_ (.pure h fun _ => trivial)
  exact .bind hg.pattern fun _ _ _ => .pure h fun _ => ⟨trivial, rfl⟩

theorem agree_topPattern (hg : Agrees fork g g') :
    Agree fork True 0 n (topPattern g) (topPattern g') := by
  refine .maybe rfl (.inl rfl) fun _ => .bind hg.pattern fun p q hpq => ?_
  refine .check (.inl rfl) fun _ => .ite (fun _ => ?_) fun _ => .pure hpq fun _ => ⟨trivial, rfl⟩
  refine .bind (agree_loop (fun l l' hl => ?_) (.refl [])) fun l l' hl => ?_
  · refine .accept rfl (.inl rfl) ?_ (.pure (same_done.mpr hl) id)
    exact .bind hg.pattern fun p q hpq => .pure (same_more.mpr (hl.concat hpq)) clear_concat
  · refine .pure ?_ fun _ => ⟨⟨trivial, rfl⟩, ?_⟩
    · simp_all [Same, bare, Pattern.bare]
    · simp [clear]

theorem agree_patternElements (hg : Agrees fork g g') (hn : 0 < n) {closer : Token.Kind} :
    Agree fork True 0 n (patternElements g closer) (patternElements g' closer) := by
  refine (agree_loop (fun x x' hx => ?_) (.refl ([], false))).keep fun _ => trivial
  obtain ⟨l, comma⟩ := x
  obtain ⟨l', comma'⟩ := x'
  refine .check (.inr hn) fun _ => .check (.inl rfl) fun _ => .ite (fun _ => ?_) fun _ => ?_
  · exact .pure (same_done.mpr hx) id
  · refine .bind (agree_topPattern hg) fun p q hpq => .accept rfl (.inr hn) ?_ ?_
    · refine .pure ?_ fun _ => ⟨?_, rfl⟩
      · simp_all [Same, bare, Step.bare]
      · simp [clear]
    · refine .pure ?_ fun _ => ⟨?_, rfl⟩
      · simp_all [Same, bare, Step.bare]
      · simp [clear]

theorem agree_tuplePattern (hg : Agrees fork g g') :
    Agree fork True 0 n (tuplePattern g) (tuplePattern g') := by
  refine .advance fun k l r i j => ?_
  extract_lets closer
  have hcloser : closer ≠ .eof := by
    unfold closer
    split <;> decide
  refine Agree.fewer (m := 1) ?_ (Nat.zero_le 1)
  refine .bind (agree_patternElements hg (Nat.succ_pos _)) fun x x' hx => ?_
  obtain ⟨elems, comma⟩ := x
  obtain ⟨elems', comma'⟩ := x'
  obtain ⟨helems, rfl⟩ : elems.map Pattern.bare = elems'.map Pattern.bare ∧ comma = comma' :=
    Prod.mk.inj hx
  refine .expect (beq_false_of_ne hcloser) fun _ _ _ _ _ => ?_
  have htuple : Same (Pattern.tuple elems i) (.tuple elems' j) := by
    simp_all [Same, bare, Pattern.bare]
  -- parentheses go away around one pattern only, so the lists are compared
  rcases elems with - | ⟨p, - | ⟨p₂, ps⟩⟩ <;> rcases elems' with - | ⟨q, - | ⟨q₂, qs⟩⟩
  · exact .pure htuple fun _ => ⟨trivial, by simp [clear]⟩
  · cases helems
  · cases helems
  · cases helems
  · refine .pure ?_ fun _ => ⟨trivial, by simp [clear]⟩
    have hpq : Same p q := (List.cons.inj helems).1
    dsimp only
    split
    · exact hpq
    · exact htuple
  · simp at helems
  · cases helems
  · simp at helems
  · exact .pure htuple fun _ => ⟨trivial, by simp [clear]⟩

theorem agree_pathPattern (hg : Agrees fork g g') :
    Agree fork True 0 n (pathPattern g) (pathPattern g') := by
  refine .onMatch fun a b hab => .bind agree_path fun segments segments' hs => ?_
  obtain rfl : segments = segments' := hs
  refine .onKind rfl rfl fun k => Agree.keep (J := True) ?_ fun _ => ⟨trivial, rfl⟩
  split
  · refine .advance fun _ _ _ _ _ => Agree.fewer (m := 1) ?_ (Nat.zero_le 1)
    refine .bind (agree_commaList (Nat.succ_pos _) (agree_topPattern hg)) fun l l' hl => ?_
    refine .expect rfl fun _ _ _ _ _ => .pure ?_ fun _ => ⟨trivial, by simp [clear]⟩
    simp_all [Same, bare, Pattern.bare]
  · exact .next agree_skipBalanced (.pure rfl fun _ => trivial)
  · split
    · simp only [hab.kind_iff (show ender .ident = false from rfl)]
      refine .ite (fun _ => agree_finishBinding hg rfl) fun _ => .pure rfl fun _ => trivial
    · exact .pure rfl fun _ => trivial

theorem agree_pattern (hg : Agrees fork g g') :
    Agree fork True 0 n (pattern g) (pattern g') := by
  refine .onCurrent (fun k l r i j => ?_) fun a b ha _ => ?_
  · dsimp only
    split
    case h_1 | h_2 => exact .advance fun _ _ _ _ _ => .pure rfl fun _ => trivial
    case h_3 =>
      refine .advance fun _ _ _ _ _ => .maybe rfl (.inl rfl) fun _ => ?_
      exact .expect rfl fun _ _ _ _ _ => .pure rfl fun _ => trivial
    case h_4 =>
      refine .advance fun _ _ _ _ _ => .onCurrent (fun k l r i j => ?_) fun a b ha _ => ?_
      · refine .ite (fun _ => ?_) fun _ => agree_report
        exact .advance fun _ _ _ _ _ => agree_finishBinding hg rfl
      · rcases ender_cases ha with ha | ha | ha <;> rw [ha]
        all_goals exact agree_report
    case h_5 | h_6 =>
      refine .advance fun _ _ _ _ _ => .maybe rfl (.inl rfl) fun _ => ?_
      refine .bind hg.pattern fun p q hpq => .pure ?_ fun _ => ⟨trivial, rfl⟩
      exact congrArg (Pattern.ref · nowhere) hpq
    case h_7 | h_8 => exact agree_tuplePattern hg
    case h_17 | h_18 | h_19 | h_20 | h_21 | h_22 => exact agree_pathPattern hg
    case h_23 => exact .loud ((loud_report _).next fun _ => moves_advance.bind fun _ => .pure _)
    all_goals
      refine .bind (agree_patternLiteral hg) fun l l' hl => ?_
      have hlit : Same (Pattern.lit l) (.lit l') := congrArg Pattern.lit hl
      refine .check (.inl rfl) fun _ => .check (.inl rfl) fun _ => .ite (fun _ => ?_) fun _ => ?_
      · refine .advance fun _ _ _ _ _ => .onKind rfl rfl fun k => .ite (fun _ => ?_) fun _ => ?_
        · refine .bind (agree_patternLiteral hg) fun _ _ _ => ?_
          exact .pure hlit fun _ => ⟨⟨trivial, rfl⟩, rfl⟩
        · exact .pure hlit fun _ => ⟨trivial, rfl⟩
      · exact .pure hlit fun _ => ⟨trivial, rfl⟩
  · rcases ender_cases ha with ha | ha | ha <;> rw [ha]
    all_goals exact .loud ((loud_report _).next fun _ => moves_advance.bind fun _ => .pure _)

end RustLua.Parser
