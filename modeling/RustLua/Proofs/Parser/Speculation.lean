import RustLua.Proofs.Parser.Progress

/-! # Macro calls leave no trace

The arguments of a macro are read on trial. If they turn out to be no list of
expressions, the parser goes back to the opening delimiter, drops the reports that the
trial made and skips the group. Dropping cuts the reports to their former number. That
this gives back the former reports, and no others, is so because no production ever takes
a report away, the trial with all its inner trials included. The reports on illegal
tokens, which are made before parsing starts, therefore stay in front to the end. -/
namespace RustLua.Parser

open RustLua.Tree

variable {α : Type} {g : Grammar} {depth : Nat} {s t : State} {e : Expr} {rest : List Token}

/-! ## Delimited groups -/

/-- Opening delimiters less closing ones. -/
def nesting (tokens : List Token) : Int :=
  (tokens.countP fun t => opens t.kind) - (tokens.countP fun t => closes t.kind)

/-- A group, and what stands behind it: up to its last token some delimiter is open, and
there all are closed unless the source ends. -/
structure DelimitedGroup (group after : List Token) : Prop where
  unclosed : ∀ n, 0 < n → n < group.length → 0 < nesting (group.take n)
  inside : ∀ t ∈ group, t.kind ≠ .eof
  ending : nesting group = 0 ∨ (after.headD beyond).kind = .eof

@[simp] theorem nesting_nil : nesting [] = 0 := rfl

theorem nesting_cons (t : Token) (tokens : List Token) :
    nesting (t :: tokens) =
      (if opens t.kind then 1 else if closes t.kind then -1 else 0) + nesting tokens := by
  have hdisjoint : opens t.kind = true → closes t.kind = false := by
    cases t.kind <;> simp [opens, closes]
  by_cases ho : opens t.kind = true
  · simp [nesting, ho, hdisjoint ho]
    omega
  · by_cases hc : closes t.kind = true
    · simp [nesting, ho, hc]
      omega
    · simp [nesting, ho, hc]

theorem balancedWidth_le_length (depth : Nat) (tokens : List Token) :
    balancedWidth depth tokens ≤ tokens.length := by
  induction tokens generalizing depth with
  | nil => exact Nat.zero_le _
  | cons t rest ih =>
    unfold balancedWidth
    split
    · exact Nat.zero_le _
    · extract_lets inner
      have hrest := ih inner
      rw [List.length_cons]
      split <;> omega

/-- What is skipped while `depth` delimiters are open. -/
theorem balancedWidth_open {depth : Nat} (hd : 0 < depth) (tokens : List Token) :
    (∀ n < balancedWidth depth tokens, 0 < depth + nesting (tokens.take n)) ∧
    (∀ t ∈ tokens.take (balancedWidth depth tokens), t.kind ≠ .eof) ∧
    (depth + nesting (tokens.take (balancedWidth depth tokens)) = 0 ∨
      ((tokens.drop (balancedWidth depth tokens)).headD beyond).kind = .eof) := by
  induction tokens generalizing depth with
  | nil => simp [balancedWidth, beyond]
  | cons t rest ih =>
    by_cases heof : t.kind = .eof
    · simp [balancedWidth, heof]
    -- the depth behind the first token is the old one and the change of the nesting
    obtain ⟨inner, hinner, hwidth⟩ : ∃ inner : Nat,
        (inner : Int) = depth + (if opens t.kind then 1 else if closes t.kind then -1 else 0) ∧
        balancedWidth depth (t :: rest) =
          if inner = 0 then 1 else balancedWidth inner rest + 1 := by
      refine ⟨if opens t.kind then depth + 1 else if closes t.kind then depth - 1 else depth,
        ?_, ?_⟩
      · split
        · omega
        · split <;> omega
      · rw [balancedWidth, if_neg heof]
        simp only [Nat.add_comm 1]
    rw [hwidth]
    by_cases hzero : inner = 0
    · rw [if_pos hzero]
      refine ⟨fun n hn => ?_, ?_, .inl ?_⟩
      · obtain rfl : n = 0 := by omega
        simpa using hd
      · simpa using heof
      · rw [List.take_succ_cons, nesting_cons, List.take_zero, nesting_nil]
        omega
    · obtain ⟨hopen, hinside, hend⟩ := ih (Nat.pos_of_ne_zero hzero)
      rw [if_neg hzero, List.take_succ_cons, List.drop_succ_cons]
      refine ⟨fun n hn => ?_, ?_, ?_⟩
      · cases n with
        | zero => simpa using hd
        | succ n =>
          have hn' := hopen n (by omega)
          rw [List.take_succ_cons, nesting_cons]
          omega
      · rw [List.forall_mem_cons]
        exact ⟨heof, hinside⟩
      · rw [nesting_cons]
        rcases hend with hend | hend
        · left; omega
        · exact .inr hend

/-- What is skipped from an opening delimiter on is a group. -/
theorem delimitedGroup_balancedWidth {opener : Token}
    (ho : opens opener.kind = true) :
    DelimitedGroup ((opener :: rest).take (balancedWidth 0 (opener :: rest)))
      ((opener :: rest).drop (balancedWidth 0 (opener :: rest))) := by
  have hwidth : balancedWidth 0 (opener :: rest) = balancedWidth 1 rest + 1 := by
    rw [balancedWidth, if_neg (ne_eof_of_opens ho)]
    simp [ho, Nat.add_comm]
  obtain ⟨hopen, hinside, hend⟩ := balancedWidth_open Nat.one_pos rest
  rw [hwidth, List.take_succ_cons, List.drop_succ_cons]
  refine ⟨fun n hpos hn => ?_, ?_, ?_⟩
  · obtain ⟨m, rfl⟩ : ∃ m, n = m + 1 := ⟨n - 1, by omega⟩
    have hm : m < balancedWidth 1 rest := by
      simp only [List.length_cons, List.length_take] at hn
      omega
    have hn' := hopen m hm
    rw [List.take_succ_cons, nesting_cons, if_pos ho, List.take_take, Nat.min_eq_left (by omega)]
    omega
  · rw [List.forall_mem_cons]
    exact ⟨ne_eof_of_opens ho, hinside⟩
  · rw [nesting_cons, if_pos ho]
    rcases hend with hend | hend
    · left; omega
    · exact .inr hend

/-! ## What a production keeps -/

/-- A grammar whose entry points all move forward. -/
structure MovesOn (g : Grammar) : Prop where
  expression : Moves g.expression
  precedence : ∀ level, Moves (g.precedence level)
  unary : Moves g.unary
  primary : Moves g.primary
  ifElse : Moves g.ifElse
  block : Moves g.block
  item : Moves g.item
  pattern : Moves g.pattern
  skipType : Moves g.skipType

theorem movesOn_grammar (depth : Nat) : MovesOn (grammar depth) where
  expression := moves_of_runs fun _ _ => (sound_zero depth).expression
  precedence level := moves_of_runs fun _ _ => (sound_zero depth).precedence level
  unary := moves_of_runs fun _ _ => (sound_zero depth).unary
  primary := moves_of_runs fun _ _ => (sound_zero depth).primary
  ifElse := moves_of_runs fun _ _ => (sound_zero depth).ifElse
  block := moves_of_runs fun _ _ => (sound_zero depth).body
  item := moves_of_runs fun _ _ => (sound_zero depth).item
  pattern := moves_of_runs fun _ _ => (sound_zero depth).pattern
  skipType := moves_of_runs fun _ _ => (sound_zero depth).skipType

theorem moves_skipAngles : Moves skipAngles := moves_of_runs (n := 0) fun _ _ => reads_skipAngles

/-! ## Macro calls -/

/-- The result of a macro call whose group starts with `opener`, and the tokens behind it. -/
inductive MacroEnds (path : List Bytes) (pos : Pos) (opener : Token) (rest : List Token) :
    Expr → List Token → Prop
  /-- The arguments were read, and the closing delimiter was taken. -/
  | parsed {args : List Expr} {inside after : List Token} {closer : Token}
      (hsplit : rest = inside ++ closer :: after) (hcloser : closer.kind = closerOf opener.kind) :
      MacroEnds path pos opener rest (.macroCall path args false pos) after
  /-- The group was skipped. -/
  | skipped {group after : List Token} (hsplit : opener :: rest = group ++ after)
      (hlength : group.length = balancedWidth 0 (opener :: rest))
      (hgroup : DelimitedGroup group after) :
      MacroEnds path pos opener rest (.macroCall path [] true pos) after

theorem macroGroup_leaves_no_trace {path : List Bytes} {pos : Pos} {opener : Token}
    (ho : opens opener.kind = true) (hs : s.ahead = opener :: rest)
    (hr : macroGroup (grammar depth) path pos s = some (e, t)) :
    t.bag = s.bag ∧ t.noStruct = s.noStruct ∧ MacroEnds path pos opener rest e t.ahead := by
  obtain ⟨⟨first, u⟩, ha, hr⟩ := Option.bind_eq_some_iff.mp (show (advance s).bind _ = _ from hr)
  rw [advance_cons hs] at ha
  cases ha
  obtain ⟨⟨args, stop⟩, hm, hr⟩ := Option.bind_eq_some_iff.mp
    (show (macroArguments (grammar depth) (closerOf opener.kind) _).bind _ = _ from hr)
  have hmoved : Moved _ stop :=
    moves_of_runs (fun _ _ => reads_macroArguments (sound_zero depth) _) _ _ _ hm
  change (if stop.current.kind = closerOf opener.kind ∧ stop.bag.count = s.bag.count then _
    else _ : Parser Expr) stop = _ at hr
  split at hr
  · rename_i hc
    obtain ⟨inside, hinside⟩ := hmoved.ahead
    cases hl : stop.ahead with
    | nil =>
      have heof : stop.current.kind = .eof := by simp [State.current, hl, beyond]
      exact absurd (hc.1.symm.trans heof) (closerOf_ne_eof _)
    | cons closer after =>
      have hcloser : closer.kind = closerOf opener.kind := by
        rw [← hc.1, State.current, hl]
        rfl
      obtain ⟨⟨_, v⟩, hv, hr⟩ := Option.bind_eq_some_iff.mp (show (advance stop).bind _ = _ from hr)
      rw [advance_cons hl] at hv
      cases hv
      cases hr
      rw [hl] at hinside
      exact ⟨hmoved.bag_eq hc.2, hmoved.noStruct, .parsed hinside.symm hcloser⟩
  · have hfirst : Moved s { s with ahead := rest, previous := opener.kind } :=
      ⟨by simp [hs], ⟨[], by simp⟩, rfl⟩
    have hback : Moved s stop := hfirst.trans hmoved
    rw [hback.rewind_bind] at hr
    obtain ⟨v, hv, hahead, hbag, hflag⟩ := skip_eq_some (balancedWidth 0 s.ahead) s
    obtain ⟨⟨_, w⟩, hw, hr⟩ := Option.bind_eq_some_iff.mp
      (show (skipBalanced s).bind _ = _ from hr)
    obtain rfl : v = w := by
      have := hv.symm.trans (show skip (balancedWidth 0 s.ahead) s = _ from hw)
      cases this
      rfl
    cases hr
    rw [hs] at hahead
    refine ⟨hbag, hflag, ?_⟩
    rw [hahead]
    refine .skipped (List.take_append_drop _ _).symm ?_ (delimitedGroup_balancedWidth ho)
    exact List.length_take_of_le (balancedWidth_le_length 0 _)

theorem macroCall_leaves_no_trace {path : List Bytes} {pos : Pos} {bang opener : Token}
    (hs : s.ahead = bang :: opener :: rest) (hb : bang.kind = .bang)
    (ho : opens opener.kind = true)
    (hr : macroCall (grammar depth) path pos s = some (e, t)) :
    t.bag = s.bag ∧ t.noStruct = s.noStruct ∧ MacroEnds path pos opener rest e t.ahead := by
  obtain ⟨⟨e', u⟩, hinner, hrestore⟩ := Option.bind_eq_some_iff.mp
    (show ((do let _ ← expect .bang; macroGroup (grammar depth) path pos : Parser Expr)
      { s with noStruct := false }).bind _ = _ from hr)
  cases hrestore
  obtain ⟨⟨_, v⟩, hexpect, hgroup⟩ := Option.bind_eq_some_iff.mp
    (show (expect .bang { s with noStruct := false }).bind _ = _ from hinner)
  rw [expect_cons (s := { s with noStruct := false }) hs hb] at hexpect
  cases hexpect
  obtain ⟨hbag, _, hends⟩ := macroGroup_leaves_no_trace ho rfl hgroup
  exact ⟨hbag, rfl, hends⟩

/-- The reports of a source begin with those on its illegal tokens. -/
theorem parse_reports_illegal {source : Bytes} {tokens : List Token}
    (h : Token.tokenize source = .ok tokens) :
    ∃ file more, parse source = .ok (file, ⟨(illegalTokens tokens).items ++ more⟩) := by
  obtain ⟨items, s, hr, _⟩ := parseTokens?_eq_some tokens
  obtain ⟨more, hmore, _⟩ := (moves_items _ .eof _ _ _ hr).reports
  refine ⟨⟨items⟩, more, ?_⟩
  have hbag : s.bag = ⟨(illegalTokens tokens).items ++ more⟩ := congrArg Bag.mk hmore
  unfold parse parseTokens
  rw [h]
  simp [Functor.map, Except.map, hr, hbag]

/-- At an exclamation mark with an opening delimiter behind it, a macro call is read, whatever
follows. It leaves the reports and the rule on struct literals as they were. Arguments end
behind their closing delimiter; a call without arguments that can be read ends behind its
group. No production takes a report away, so the reports on illegal tokens come first and
stay. -/
theorem macro_trials_leave_no_trace :
    (∀ depth path pos (s : State) bang opener rest, s.ahead = bang :: opener :: rest →
      bang.kind = .bang → opens opener.kind = true →
      (∀ e t, macroCall (grammar depth) path pos s = some (e, t) →
        t.bag = s.bag ∧ t.noStruct = s.noStruct ∧ MacroEnds path pos opener rest e t.ahead) ∧
      (depthFor s.ahead ≤ depth → ∃ e t, macroCall (grammar depth) path pos s = some (e, t))) ∧
    (∀ depth, MovesOn (grammar depth)) ∧
    ∀ source tokens, Token.tokenize source = .ok tokens → ∃ file more,
      parse source = .ok (file, ⟨((tokens.filter (·.kind = .illegal)).map fun t =>
        .atPos .error t.pos ("illegal token: " ++ t.literal)) ++ more⟩) := by
  refine ⟨?_, movesOn_grammar, fun source tokens h => parse_reports_illegal h⟩
  intro depth path pos s bang opener rest hs hb ho
  refine ⟨fun e t hr => macroCall_leaves_no_trace hs hb ho hr, fun hd => ?_⟩
  have hm : AtMacro s.ahead := by
    rw [hs]
    exact ⟨hb, ho⟩
  have hg : Sound (s.ahead.length + 1 - 2) s.ahead (grammar depth) :=
    sound_grammar (by unfold depthFor at hd; omega)
  obtain ⟨e, t, hr, _⟩ := macroCall_past_opener hm hg path pos (Nat.lt_succ_self _)
  exact ⟨e, t, hr⟩

/-- The inner call is read on trial inside the trial of the outer one, whose group is never
closed; the byte that starts no token was reported before. -/
theorem macro_trials_leave_no_trace_nested :
    (∃ tokens e t, Token.tokenize "!(n![`],@ fn" = .ok tokens ∧
      macroCall (grammar (depthFor tokens)) ["m"] ⟨1, 1⟩
        { ahead := tokens, bag := illegalTokens tokens, noStruct := true } = some (e, t) ∧
      t.bag.count = 1 ∧ t.bag = illegalTokens tokens ∧ t.noStruct = true) ∧
    ∃ file more, parse "fn f()\x7bm!(n![`],@)\x7d" =
      .ok (file, ⟨.atPos .error ⟨1, 14⟩ "illegal token: `" :: more⟩) := by
  constructor
  · obtain ⟨bang, opener, rest, ht, hb, ho, hcount⟩ : ∃ bang opener rest,
        Token.tokenize "!(n![`],@ fn" = .ok (bang :: opener :: rest) ∧ bang.kind = .bang ∧
        opens opener.kind = true ∧ (illegalTokens (bang :: opener :: rest)).count = 1 :=
      ⟨_, _, _, rfl, rfl, rfl, rfl⟩
    obtain ⟨htrace, hends⟩ := macro_trials_leave_no_trace.1 (depthFor (bang :: opener :: rest))
      ["m"] ⟨1, 1⟩ ⟨bang :: opener :: rest, .eof, illegalTokens (bang :: opener :: rest), true⟩
      bang opener rest rfl hb ho
    obtain ⟨e, t, hr⟩ := hends (Nat.le_refl _)
    obtain ⟨hbag, hflag, _⟩ := htrace e t hr
    exact ⟨_, e, t, ht, hr, by rw [hbag]; exact hcount, hbag, hflag⟩
  · obtain ⟨tokens, ht, hillegal⟩ : ∃ tokens,
        Token.tokenize "fn f()\x7bm!(n![`],@)\x7d" = .ok tokens ∧
        ((tokens.filter (·.kind = .illegal)).map fun t =>
          Diagnostic.atPos .error t.pos ("illegal token: " ++ t.literal)) =
          [.atPos .error ⟨1, 14⟩ "illegal token: `"] :=
      ⟨_, rfl, rfl⟩
    obtain ⟨file, more, hparse⟩ := macro_trials_leave_no_trace.2.2 _ tokens ht
    rw [hillegal] at hparse
    exact ⟨file, more, hparse⟩

end RustLua.Parser
