import RustLua.Proofs.Parser.RunsFiles
import RustLua.Proofs.Token.Words

/-! # Parsing ends

A parser has two ways to give nothing: a loop goes on without taking a token, or the grammar
is tied too short. `Ends` excludes both for states with fewer than a given number of tokens.
The runs of the productions exclude both, so every source is parsed up to its end. -/
namespace RustLua.Parser

open RustLua.Tree

variable {α β σ : Type} {n : Nat}

/-- From fewer than `n` tokens with the property `P`, the parser gives a result. It has put
no token back, and it has taken one if the result is one that `w` marks. -/
def Ends (n : Nat) (P : List Token → Prop) (p : Parser α) (w : α → Bool) : Prop :=
  ∀ s : State, s.ahead.length < n → P s.ahead →
    ∃ a t, p s = some (a, t) ∧ t.ahead.length + (w a).toNat ≤ s.ahead.length

/-- From fewer than `n` tokens, the parser gives a result and puts no token back. -/
abbrev Keeps (n : Nat) (p : Parser α) : Prop := Ends n (fun _ => True) p (fun _ => false)

/-- A grammar whose entry points all end on fewer than `n` tokens. -/
structure Answers (n : Nat) (g : Grammar) : Prop where
  expression : Keeps n g.expression
  precedence : ∀ level, Keeps n (g.precedence level)
  unary : Keeps n g.unary
  primary : Keeps n g.primary
  ifElse : Keeps n g.ifElse
  block : Keeps n g.block
  item : Keeps n g.item
  pattern : Keeps n g.pattern
  skipType : Keeps n g.skipType

theorem keeps_of_runs {p : Parser α} {w : α → Bool} {Q : List Token → α → Prop}
    (h : ∀ tokens t, RunsAt n tokens t p w (Q tokens)) : Keeps n p := by
  intro s hs _
  obtain ⟨hends, hreach⟩ := h s.ahead _ s rfl (List.suffix_refl _)
  obtain ⟨⟨a, u⟩, hr⟩ := hends hs
  exact ⟨a, u, hr, (hreach a u hr).moved.ahead.length_le⟩

theorem answers_grammar {d : Nat} (hd : 4 * n ≤ d) : Answers n (grammar d) where
  expression := keeps_of_runs fun _ _ => (sound_grammar hd).expression
  precedence level := keeps_of_runs fun _ _ => (sound_grammar hd).precedence level
  unary := keeps_of_runs fun _ _ => (sound_grammar hd).unary
  primary := keeps_of_runs fun _ _ => (sound_grammar hd).primary
  ifElse := keeps_of_runs fun _ _ => (sound_grammar hd).ifElse
  block := keeps_of_runs fun _ _ => (sound_grammar hd).body
  item := keeps_of_runs fun _ _ => (sound_grammar hd).item
  pattern := keeps_of_runs fun _ _ => (sound_grammar hd).pattern
  skipType := keeps_of_runs fun _ _ => (sound_grammar hd).skipType

/-! ## Files -/

/-- A loop ends where its last round does. -/
theorem iterate_ends {body : σ → Parser (Step σ β)} {D : State → Prop}
    (h : ∀ x s b t, body x s = some (.done b, t) → D t) {i : Nat} {x : σ} {s t : State} {b : β}
    (hr : iterate body i x s = some (b, t)) : D t := by
  induction i generalizing x s with
  | zero => cases hr
  | succ i ih =>
    obtain ⟨⟨r, u⟩, hbody, hrest⟩ := Option.bind_eq_some_iff.mp
      (show (body x s).bind _ = some (b, t) from hr)
    cases r with
    | more x' =>
      change (if u.ahead.length < s.ahead.length then iterate body i x' else failure) u = _ at hrest
      split at hrest
      · exact ih hrest
      · cases hrest
    | done b' =>
      cases hrest
      exact h x s b t hbody

theorem loop_ends {body : σ → Parser (Step σ β)} {D : State → Prop}
    (h : ∀ x s b t, body x s = some (.done b, t) → D t) {x : σ} {s t : State} {b : β}
    (hr : loop body x s = some (b, t)) : D t :=
  iterate_ends h (i := s.ahead.length + 1) hr

/-- Parts are read up to the closing token or the end. -/
theorem partsUntil_ends {closer : Token.Kind} {part : Parser (Option α)} {s t : State} {l : List α}
    (h : partsUntil closer part s = some (l, t)) :
    t.current.kind = closer ∨ t.current.kind = .eof := by
  unfold partsUntil at h
  refine loop_ends (D := fun t => t.current.kind = closer ∨ t.current.kind = .eof)
    (fun acc s b t hbody => ?_) h
  change (if (decide (s.current.kind = closer) || decide (s.current.kind = .eof)) = true then
    return .done acc else _ : Parser (Step (List α) (List α))) s = _ at hbody
  split at hbody
  · rename_i hc
    cases hbody
    simpa using hc
  · -- a round that reads a part goes on
    obtain ⟨⟨a, u⟩, _, hrest⟩ := Option.bind_eq_some_iff.mp
      (show (part s).bind _ = some (Step.done b, t) from hbody)
    change (if u.ahead.length = s.ahead.length then do
      let _ ← advance
      return .more (acc ++ a.toList)
      else return .more (acc ++ a.toList) : Parser (Step (List α) (List α))) u = _ at hrest
    split at hrest
    · obtain ⟨⟨_, v⟩, _, hdone⟩ := Option.bind_eq_some_iff.mp
        (show (advance u).bind _ = some (Step.done b, t) from hrest)
      cases hdone
    · cases hrest

theorem moves_items (d : Nat) (closer : Token.Kind) : Moves (items (grammar d) closer) :=
  moves_of_runs fun _ _ => reads_items (sound_zero d) closer

theorem parseTokens?_eq_some (tokens : List Token) :
    ∃ items s, parseTokens? tokens = some (items, s) ∧ s.current.kind = .eof := by
  have hitems : Keeps (tokens.length + 1) (items (grammar (depthFor tokens)) .eof) :=
    keeps_of_runs fun _ _ => reads_items (sound_grammar (Nat.le_refl _)) .eof
  obtain ⟨items, s, hr, _⟩ := hitems (start tokens) (Nat.lt_succ_self _) trivial
  exact ⟨items, s, hr, (partsUntil_ends hr).elim id id⟩

/-- At the end of the source at most its end token is left. -/
theorem length_le_one_of_eof {source : Bytes} {tokens : List Token} {s : State}
    (h : Token.tokenize source = .ok tokens) (hs : s.ahead <:+ tokens)
    (he : s.current.kind = .eof) : s.ahead.length ≤ 1 := by
  obtain ⟨scanned, last, rfl, hscanned⟩ := Token.tokenize_eof h
  cases hl : s.ahead with
  | nil => exact Nat.zero_le _
  | cons t rest =>
    have ht : t.kind = .eof := by rw [State.current, hl] at he; exact he
    obtain ⟨before, hb⟩ := hl ▸ hs
    cases List.eq_nil_or_concat rest with
    | inl hnil => rw [hnil]; exact Nat.le_refl _
    | inr hconcat =>
      obtain ⟨front, final, rfl⟩ := hconcat
      have hmem : t ∈ scanned := by
        have hsplit : (before ++ t :: front) ++ [final] = scanned ++ [Token.endToken last] := by
          simpa using hb
        rw [← (List.append_inj' hsplit rfl).1]
        simp
      exact absurd ht (hscanned t hmem)

/-- Every source that has tokens is parsed up to its end. No loop goes on without taking a
token, and the grammar never runs out of turns: four for each token left are enough from
every state. A macro call that the parser goes back on ends behind its opening delimiter. -/
theorem parse_reaches_end {source : Bytes} {tokens : List Token}
    (h : Token.tokenize source = .ok tokens) :
    (∃ items s, parseTokens? tokens = some (items, s) ∧ parse source = .ok (⟨items⟩, s.bag) ∧
      s.current.kind = .eof ∧ s.ahead <:+ tokens ∧ s.ahead.length ≤ 1) ∧
    (∀ n, Answers n (grammar (4 * n))) ∧
    ∀ path pos (s : State), AtMacro s.ahead →
      ∃ e t, macroCall (grammar (depthFor s.ahead)) path pos s = some (e, t) ∧
        t.ahead.length + 2 ≤ s.ahead.length := by
  refine ⟨?_, fun n => answers_grammar (Nat.le_refl _), fun path pos s hm => ?_⟩
  · obtain ⟨items, s, hr, he⟩ := parseTokens?_eq_some tokens
    have hmoved : Moved (start tokens) s := moves_items _ .eof _ _ _ hr
    have hparse : parse source = .ok (⟨items⟩, s.bag) := by
      unfold parse parseTokens
      rw [h]
      simp [Functor.map, Except.map, hr]
    exact ⟨items, s, hr, hparse, he, hmoved.ahead, length_le_one_of_eof h hmoved.ahead he⟩
  · have hg : Sound (s.ahead.length + 1 - 2) s.ahead (grammar (depthFor s.ahead)) :=
      sound_grammar (by unfold depthFor; omega)
    exact macroCall_past_opener hm hg path pos (Nat.lt_succ_self _)

/-- Neither the inner group nor the outer one nor the function is closed. -/
theorem parse_reaches_end_open_macros :
    ∃ tokens items s, Token.tokenize "fn f()\x7bm!(n![@," = .ok tokens ∧
      parseTokens? tokens = some (items, s) ∧ s.current.kind = .eof ∧ s.ahead.length ≤ 1 := by
  obtain ⟨tokens, ht⟩ : ∃ tokens, Token.tokenize "fn f()\x7bm!(n![@," = .ok tokens := ⟨_, rfl⟩
  obtain ⟨⟨items, s, hr, _, he, _, hlength⟩, _⟩ := parse_reaches_end ht
  exact ⟨tokens, items, s, ht, hr, he, hlength⟩

end RustLua.Parser
