import RustLua.Proofs.Parser.Genuine
import RustLua.Proofs.Parser.Places

/-! # What is said of a parser

`RunsAt` is what is shown of every production: from few enough tokens it gives a result; it
moves forward and keeps everything in its place; and what a quiet run gives has a property.
The current token is known in it, so that looking at it decides which way a parser goes. A
token that is taken has to be seen not to be the end token first, and behind it the bound on
the tokens is smaller by one: that is what a production may count on where it calls the
grammar, and a loop where it goes on.

A postcondition may be an implication: the rule for sequences hands the result of the first
parser to the second as an assumption (`P a → Q b`), because the second runs in any case, but
only a quiet run promises `P a`. -/
namespace RustLua.Parser

variable {α β σ : Type} {n : Nat} {tokens : List Token} {s : State} {t : Token} {k : Token.Kind}

/-- A run from `s` that ends in `u` with the result `a`. It has taken a token if `w` marks the
result, and the result has the property `Q` if nothing was reported. -/
structure Reaches (tokens : List Token) (w : α → Bool) (Q : α → Prop) (s : State) (a : α)
    (u : State) : Prop where
  moved : Moved s u
  taken : w a = true → u.ahead.length < s.ahead.length
  inPlace : InPlace tokens s → InPlace tokens u
  quiet : u.bag = s.bag → Q a

/-- Somewhere in these tokens, with fewer than `n` of them ahead, `p` gives a result; and
whatever it gives is reached by such a run. -/
def RunsFrom (n : Nat) (tokens : List Token) (s : State) (p : Parser α) (w : α → Bool)
    (Q : α → Prop) : Prop :=
  s.ahead <:+ tokens → (s.ahead.length < n → ∃ r, p s = some r) ∧
    ∀ a u, p s = some (a, u) → Reaches tokens w Q s a u

/-- The same from every state whose current token is `t`. -/
def RunsAt (n : Nat) (tokens : List Token) (t : Token) (p : Parser α) (w : α → Bool)
    (Q : α → Prop) : Prop :=
  ∀ s : State, s.current = t → RunsFrom n tokens s p w Q

/-- The same where no result has to come behind a token. -/
abbrev Reads (n : Nat) (tokens : List Token) (t : Token) (p : Parser α) (Q : α → Prop) : Prop :=
  RunsAt n tokens t p (fun _ => false) Q

/-! ## Rules -/

variable {p : Parser α} {f : α → Parser β} {w : α → Bool} {v : β → Bool} {P : α → Prop}
  {Q : β → Prop}

theorem Reaches.trans {a : α} {b : β} {u x : State} (h : Reaches tokens w P s a u)
    (h' : Reaches tokens v (fun b => P a → Q b) u b x) : Reaches tokens v Q s b x where
  moved := h.moved.trans h'.moved
  taken hv := Nat.lt_of_lt_of_le (h'.taken hv) h.moved.ahead.length_le
  inPlace hs := h'.inPlace (h.inPlace hs)
  quiet hb := by
    obtain ⟨hq, hq'⟩ := h.moved.quiet h'.moved hb
    exact h'.quiet hq' (h.quiet hq)

theorem RunsFrom.congr {q : Parser α} (h : p s = q s) (hq : RunsFrom n tokens s q w P) :
    RunsFrom n tokens s p w P := by
  unfold RunsFrom
  rw [h]
  exact hq

theorem RunsFrom.bind (hp : RunsFrom n tokens s p w P)
    (hf : ∀ a t', RunsAt n tokens t' (f a) v (fun b => P a → Q b)) :
    RunsFrom n tokens s (p >>= f) v Q := by
  intro hs
  obtain ⟨hends, hreach⟩ := hp hs
  refine ⟨fun hn => ?_, fun b x hr => ?_⟩
  · obtain ⟨⟨a, u⟩, hpr⟩ := hends hn
    have hu := (hreach a u hpr).moved.ahead
    obtain ⟨r, hr⟩ := (hf a _ u rfl (hu.trans hs)).1 (Nat.lt_of_le_of_lt hu.length_le hn)
    exact ⟨r, by simp [Bind.bind, StateT.bind, hpr, hr]⟩
  · obtain ⟨⟨a, u⟩, hpr, hfr⟩ := Option.bind_eq_some_iff.mp hr
    have hu := hreach a u hpr
    exact hu.trans ((hf a _ u rfl (hu.moved.ahead.trans hs)).2 b x hfr)

/-- Behind a token there is one token less, and every result comes after it. -/
theorem RunsFrom.past (hp : RunsFrom n tokens s p (fun _ => true) P)
    (hf : ∀ a t', Reads (n - 1) tokens t' (f a) (fun b => P a → Q b)) :
    RunsFrom n tokens s (p >>= f) v Q := by
  intro hs
  obtain ⟨hends, hreach⟩ := hp hs
  refine ⟨fun hn => ?_, fun b x hr => ?_⟩
  · obtain ⟨⟨a, u⟩, hpr⟩ := hends hn
    have hu := hreach a u hpr
    have hlt := hu.taken rfl
    obtain ⟨r, hr⟩ := (hf a _ u rfl (hu.moved.ahead.trans hs)).1 (by omega)
    exact ⟨r, by simp [Bind.bind, StateT.bind, hpr, hr]⟩
  · obtain ⟨⟨a, u⟩, hpr, hfr⟩ := Option.bind_eq_some_iff.mp hr
    have hu := hreach a u hpr
    have hx := (hf a _ u rfl (hu.moved.ahead.trans hs)).2 b x hfr
    exact { hu.trans hx with
      taken := fun _ => Nat.lt_of_le_of_lt hx.moved.ahead.length_le (hu.taken rfl) }

theorem RunsAt.mono {Q : α → Prop} (h : RunsAt n tokens t p w P) (hpq : ∀ a, P a → Q a) :
    RunsAt n tokens t p w Q := by
  intro s hc hs
  obtain ⟨hends, hreach⟩ := h s hc hs
  refine ⟨hends, fun a u hr => ?_⟩
  exact { hreach a u hr with quiet := fun hb => hpq a ((hreach a u hr).quiet hb) }

/-- An assumption that is not needed. -/
theorem RunsAt.weaken {A : Prop} (h : RunsAt n tokens t p w P) :
    RunsAt n tokens t p w (fun a => A → P a) :=
  h.mono fun _ ha _ => ha

/-- That a token is taken may be forgotten, and so may some of the tokens. -/
theorem RunsAt.forget {m : Nat} (h : RunsAt n tokens t p w P) (hm : m ≤ n) :
    Reads m tokens t p P := by
  intro s hc hs
  obtain ⟨hends, hreach⟩ := h s hc hs
  refine ⟨fun hn => hends (Nat.lt_of_lt_of_le hn hm), fun a u hr => ?_⟩
  exact { hreach a u hr with taken := fun h => by cases h }

theorem RunsAt.pred (h : RunsAt n tokens t p w P) : Reads (n - 1) tokens t p P :=
  h.forget (Nat.sub_le n 1)

theorem RunsAt.same {a : α} (hw : w a = false) (h : P a) : RunsAt n tokens t (pure a) w P := by
  refine fun s _ _ => ⟨fun _ => ⟨_, rfl⟩, fun b u hr => ?_⟩
  cases hr
  exact ⟨.refl s, fun hm => (Bool.false_ne_true (hw.symm.trans hm)).elim, id, fun _ => h⟩

theorem RunsAt.pure {a : α} (h : P a) : Reads n tokens t (pure a) P := .same rfl h

theorem RunsAt.failure : RunsAt 0 tokens t failure w P :=
  fun _ _ _ => ⟨fun hn => absurd hn (Nat.not_lt_zero _), fun _ _ hr => by cases hr⟩

theorem RunsAt.bind (hp : RunsAt n tokens t p w P)
    (hf : ∀ a t', RunsAt n tokens t' (f a) v (fun b => P a → Q b)) :
    RunsAt n tokens t (p >>= f) v Q :=
  fun s hc => (hp s hc).bind hf

/-- A sequence whose first result does not matter. -/
theorem RunsAt.next (hp : RunsAt n tokens t p w P) (hf : ∀ a t', RunsAt n tokens t' (f a) v Q) :
    RunsAt n tokens t (p >>= f) v Q :=
  hp.bind fun a t' => (hf a t').weaken

theorem RunsAt.past (hp : RunsAt n tokens t p (fun _ => true) P)
    (hf : ∀ a t', Reads (n - 1) tokens t' (f a) (fun b => P a → Q b)) :
    RunsAt n tokens t (p >>= f) v Q :=
  fun s hc => (hp s hc).past hf

theorem RunsAt.map {f : α → β} (hp : RunsAt n tokens t p w P) (hf : ∀ a, P a → Q (f a)) :
    Reads n tokens t (f <$> p) Q := by
  rw [← bind_pure_comp]
  exact hp.bind fun a _ => .pure (hf a)

theorem RunsAt.optional (hp : RunsAt n tokens t p w P) :
    Reads n tokens t (some <$> p) (fun o => ∀ a ∈ o, P a) :=
  hp.map fun a ha => by simpa using ha

theorem RunsAt.ite {c : Prop} [Decidable c] {p q : Parser β} (hp : c → RunsAt n tokens t p v Q)
    (hq : ¬c → RunsAt n tokens t q v Q) : RunsAt n tokens t (if c then p else q) v Q := by
  split
  · exact hp ‹_›
  · exact hq ‹_›

/-- Any current token has been seen. -/
theorem RunsAt.ofSeen (h : Seen tokens t → RunsAt n tokens t p w P) : RunsAt n tokens t p w P := by
  rintro s rfl hs
  exact h (State.seen hs) s rfl hs

/-- The rule on struct literals that holds inside does not matter, and the old one is put
back. -/
theorem RunsAt.withNoStruct (flag : Bool) (h : RunsAt n tokens t p w P) :
    RunsAt n tokens t (withNoStruct flag p) w P := by
  intro s hc hs
  obtain ⟨hends, hreach⟩ := h { s with noStruct := flag } hc hs
  refine ⟨fun hn => ?_, fun a u hr => ?_⟩
  · obtain ⟨⟨a, u⟩, hr⟩ := hends hn
    exact ⟨_, withNoStruct_eq hr⟩
  · obtain ⟨⟨b, x⟩, hpr, he⟩ := Option.bind_eq_some_iff.mp
      (show (p { s with noStruct := flag }).bind _ = _ from hr)
    cases he
    obtain ⟨hm, htaken, hplace, hquiet⟩ := hreach a x hpr
    refine ⟨⟨hm.ahead, hm.reports, rfl⟩, htaken, fun hs => ?_, hquiet⟩
    obtain ⟨htraced, hending⟩ := hplace ⟨hs.traced, hs.ending⟩
    exact ⟨htraced, hending⟩

/-- If every run is like that, whatever the tokens, the parser moves forward. -/
theorem moves_of_runs {w : α → Bool} {Q : List Token → α → Prop}
    (h : ∀ tokens t, RunsAt n tokens t p w (Q tokens)) : Moves p :=
  fun s a u hr => ((h s.ahead _ s rfl (List.suffix_refl _)).2 a u hr).moved

/-! ## Looking -/

theorem RunsAt.onGet {f : State → Parser β} (h : ∀ s, s.current = t → RunsAt n tokens t (f s) v Q) :
    RunsAt n tokens t (get >>= f) v Q :=
  fun s hc => h s hc s hc

theorem RunsAt.onCurrent {f : Token → Parser β} (h : RunsAt n tokens t (f t) v Q) :
    RunsAt n tokens t (current >>= f) v Q := by
  rintro s rfl
  exact h s rfl

theorem RunsAt.onKind {f : Token.Kind → Parser β} (h : RunsAt n tokens t (f t.kind) v Q) :
    RunsAt n tokens t (currentKind >>= f) v Q := by
  rintro s rfl
  exact h s rfl

theorem RunsAt.onPeek {i : Nat} {f : Token.Kind → Parser β}
    (h : ∀ k, RunsAt n tokens t (f k) v Q) : RunsAt n tokens t (peekKind i >>= f) v Q :=
  fun s hc => h (s.peek i).kind s hc

theorem RunsAt.onCheck {f : Bool → Parser β}
    (h : RunsAt n tokens t (f (decide (t.kind = k))) v Q) :
    RunsAt n tokens t (check k >>= f) v Q := by
  rintro s rfl
  exact h s rfl

theorem RunsAt.onWord {word : Bytes} {f : Bool → Parser β}
    (h : RunsAt n tokens t (f (decide (t.kind = .ident ∧ t.literal = word))) v Q) :
    RunsAt n tokens t (checkWord word >>= f) v Q := by
  rintro s rfl
  exact h s rfl

/-- A choice on the kind of the current token. -/
theorem RunsAt.ifKind {p q : Parser β} (hp : t.kind = k → RunsAt n tokens t p v Q)
    (hq : t.kind ≠ k → RunsAt n tokens t q v Q) :
    RunsAt n tokens t (check k >>= fun b => if b then p else q) v Q :=
  .onCheck (.ite (fun h => hp (of_decide_eq_true h)) fun h => hq (by simpa using h))

/-- Parts are read up to a closing token or the end, and not from there on. -/
theorem RunsAt.unlessEnd {p q : Parser β} (hp : RunsAt n tokens t p v Q)
    (hq : t.kind ≠ .eof → RunsAt n tokens t q v Q) :
    RunsAt n tokens t
      (check k >>= fun a => check .eof >>= fun b => if a || b then p else q) v Q := by
  refine .onCheck (.onCheck (.ite (fun _ => hp) fun h => hq fun heof => h ?_))
  rw [decide_eq_true heof, Bool.or_true]

/-! ## Taking tokens -/

/-- A kind that stands for something is not the end, which stands for nothing. -/
theorem ne_eof_of_some {f : Token.Kind → Option α} {a : α} (h : f k = some a)
    (hf : f .eof = none) : k ≠ .eof := by
  rintro rfl
  cases hf.symm.trans h

theorem runsAt_advance (hk : t.kind ≠ .eof) :
    RunsAt n tokens t advance (fun _ => true) (fun a => a = t) := by
  rintro s rfl hs
  obtain ⟨rest, hl⟩ := State.exists_cons hk
  refine ⟨fun _ => ⟨_, advance_cons hl⟩, fun a u hr => ?_⟩
  obtain ⟨ha, hm, -⟩ := advance_eq_some hr
  rw [advance_cons hl] at hr
  cases hr
  refine ⟨hm, fun _ => by simp [hl], fun h => h.drop (n := 1) ?_ (by rw [hl]; rfl) rfl, fun _ => ha⟩
  simpa [hl] using hk

/-- What is taken is the current token. -/
theorem RunsAt.take {f : Token → Parser β} (hk : t.kind ≠ .eof)
    (h : ∀ t', Reads (n - 1) tokens t' (f t) Q) : RunsAt n tokens t (advance >>= f) v Q := by
  have hrun : RunsAt n tokens t (advance >>= fun _ => f t) v Q :=
    (runsAt_advance hk).past fun _ t' => (h t').weaken
  rintro s rfl
  obtain ⟨rest, hl⟩ := State.exists_cons hk
  refine .congr ?_ (hrun s rfl)
  change (advance s).bind _ = (advance s).bind _
  rw [advance_cons hl]
  rfl

theorem RunsAt.onAccept {f : Bool → Parser β} (hk : k ≠ .eof)
    (htrue : t.kind = k → ∀ t', Reads (n - 1) tokens t' (f true) Q)
    (hfalse : t.kind ≠ k → RunsAt n tokens t (f false) v Q) :
    RunsAt n tokens t (accept k >>= f) v Q := by
  rintro s rfl
  by_cases h : s.current.kind = k
  · have hrun : RunsAt n tokens s.current ((advance >>= fun _ => Pure.pure true) >>= f) v Q := by
      rw [bind_assoc]
      refine .take (h ▸ hk) fun t' => ?_
      rw [pure_bind]
      exact htrue h t'
    refine .congr ?_ (hrun s rfl)
    change ((if decide (s.current.kind = k) = true then _ else _ : Parser Bool) s).bind _ = _
    rw [if_pos (decide_eq_true h)]
    rfl
  · refine .congr ?_ (hfalse h s rfl)
    change (accept k s).bind _ = _
    rw [accept_refused h]
    rfl

theorem RunsAt.ifAccept {p q : Parser β} (hk : k ≠ .eof)
    (hp : t.kind = k → ∀ t', Reads (n - 1) tokens t' p Q)
    (hq : t.kind ≠ k → RunsAt n tokens t q v Q) :
    RunsAt n tokens t (accept k >>= fun b => if b then p else q) v Q :=
  .onAccept hk hp hq

/-- What is accepted was current. -/
theorem reads_accept (hk : k ≠ .eof) :
    Reads n tokens t (accept k) (fun b => b = true → t.kind = k) := by
  rw [← bind_pure (accept k)]
  exact .onAccept hk (fun h _ => .pure fun _ => h) fun _ => .pure nofun

/-! ## Reporting -/

theorem runsFrom_report (pos : Pos) (e : SyntaxError)
    (h : s.ahead <:+ tokens → InPlace tokens s → InPlace tokens (s.report pos e)) :
    RunsFrom n tokens s (reportAt pos e) (fun _ => false) (fun _ => False) := by
  refine fun hs => ⟨fun _ => ⟨_, rfl⟩, fun a u hr => ?_⟩
  obtain ⟨hm, hloud⟩ := loud_reportAt pos e s a u hr
  cases hr
  exact ⟨hm, nofun, h hs, hloud⟩

theorem reads_report (e : SyntaxError) : Reads n tokens t (report e) (fun _ => False) :=
  fun s _ => runsFrom_report s.current.pos e fun hs h => h.report hs e

theorem reads_reportAt {t' : Token} (ht : t' ∈ tokens) (e : SyntaxError) :
    Reads n tokens t (reportAt t'.pos e) (fun _ => False) :=
  fun _ _ => runsFrom_report t'.pos e fun _ h => h.reportAt ht e

/-- Nothing is promised behind a report. -/
theorem RunsAt.reported (hp : RunsAt n tokens t p w (fun _ => False))
    (hf : ∀ a t', RunsAt n tokens t' (f a) v (fun _ => True)) : RunsAt n tokens t (p >>= f) v Q :=
  hp.bind fun a t' => (hf a t').mono fun _ _ h => h.elim

/-- What is expected and not there is reported. In both cases the current token is given. -/
theorem RunsAt.expect {f : Token → Parser β} (hk : k ≠ .eof)
    (hthere : t.kind = k → ∀ t', Reads (n - 1) tokens t' (f t) Q)
    (hmissing : ∀ t', RunsAt n tokens t' (f t) v (fun _ => True)) :
    RunsAt n tokens t (expect k >>= f) v Q := by
  rintro s rfl
  by_cases h : s.current.kind = k
  · refine .congr ?_ (RunsAt.take (h ▸ hk) (hthere h) s rfl)
    change ((if s.current.kind = k then _ else _ : Parser Token) >>= f) s = _
    rw [if_pos h]
  · have hrun : RunsAt n tokens s.current
        ((do report (.expected k.name s.current); return s.current) >>= f) v Q := by
      rw [bind_assoc]
      refine (reads_report _).reported fun _ t' => ?_
      rw [pure_bind]
      exact hmissing t'
    refine .congr ?_ (hrun s rfl)
    change ((if s.current.kind = k then _ else _ : Parser Token) >>= f) s = _
    rw [if_neg h]

/-- The same where the token is known to be there. -/
theorem RunsAt.expected {f : Token → Parser β} (ht : t.kind = k) (hk : k ≠ .eof)
    (h : ∀ t', Reads (n - 1) tokens t' (f t) Q) : RunsAt n tokens t (Parser.expect k >>= f) v Q := by
  rintro s rfl
  refine .congr ?_ (RunsAt.take (ht ▸ hk) h s rfl)
  change ((if s.current.kind = k then _ else _ : Parser Token) >>= f) s = _
  rw [if_pos ht]

/-- The same where the token is not looked at. -/
theorem RunsAt.pass {f : Token → Parser β} (hk : k ≠ .eof)
    (h : ∀ t', RunsAt n tokens t' (f t) v Q) : RunsAt n tokens t (Parser.expect k >>= f) v Q :=
  .expect hk (fun _ t' => (h t').pred) fun t' => (h t').mono fun _ _ => trivial

/-- The same where a name is expected. -/
theorem RunsAt.named {f : Token → Parser β}
    (h : ∀ t', RunsAt n tokens t' (f t) v (fun b => IsName tokens t.literal → Q b)) :
    RunsAt n tokens t (Parser.expect .ident >>= f) v Q := by
  refine .ofSeen fun ht => .expect (by decide) (fun hk t' => ?_) fun t' => ?_
  · exact (h t').pred.mono fun _ hq => hq ⟨t, ht (hk ▸ by decide), .inl hk, rfl⟩
  · exact (h t').mono fun _ _ => trivial

/-- The end token is taken behind one of the reports that allow it. -/
theorem reads_takeReported {e : SyntaxError} {b : β}
    (he : EndReport t (.atPos .error t.pos e.message)) :
    Reads n tokens t (do report e; let _ ← advance; return b) Q := by
  rintro s rfl hs
  obtain ⟨-, hreport⟩ := reads_report e (n := n) s rfl hs
  have hmid := hreport () _ rfl
  refine ⟨fun _ => ?_, fun b' x hr => ?_⟩
  · cases hl : (s.report s.current.pos e).ahead with
    | nil => exact ⟨_, Option.bind_eq_some_iff.mpr ⟨_, advance_nil hl, rfl⟩⟩
    | cons x rest => exact ⟨_, Option.bind_eq_some_iff.mpr ⟨_, advance_cons hl, rfl⟩⟩
  · obtain ⟨⟨_, x'⟩, hx, hr⟩ := Option.bind_eq_some_iff.mp
      (show (advance (s.report s.current.pos e)).bind _ = _ from hr)
    cases hr
    obtain ⟨-, hm, hb⟩ := advance_eq_some hx
    refine ⟨hmid.moved.trans hm, nofun, fun h => ?_, fun hq => ?_⟩
    · by_cases hk : s.current.kind = .eof
      · exact ⟨hb ▸ (h.report hs e).traced, .inr (hb ▸ h.endTaken hs he hk)⟩
      · have htake : RunsAt n tokens s.current advance _ _ := runsAt_advance hk
        exact ((htake (s.report s.current.pos e) rfl hs).2 _ _ hx).inPlace (h.report hs e)
    · exact (hmid.quiet (hb.symm.trans hq)).elim

/-! ## Loops -/

def Step.isMore : Step σ β → Bool
  | .more _ => true
  | .done _ => false

theorem RunsAt.done {b : β} {Q : Step σ β → Prop} (h : Q (.done b)) :
    RunsAt n tokens t (Pure.pure (.done b)) Step.isMore Q :=
  .same rfl h

/-- A loop ends if each round that goes on takes a token, and keeps an invariant if each round
does. What the invariant says of the current token holds of any token behind the first round. -/
theorem reads_rounds {body : σ → Parser (Step σ β)} {I : σ → Token → Prop}
    (h : ∀ x t', RunsAt n tokens t' (body x) Step.isMore
      (fun r => I x t' → r.Meets (fun x' => ∀ t'', I x' t'') Q)) (x : σ) :
    Reads n tokens t (loop body x) (fun b => I x t → Q b) := by
  have hrounds (i : Nat) (x : σ) (s : State) (hs : s.ahead <:+ tokens) :
      (s.ahead.length < n → s.ahead.length < i → ∃ r, iterate body i x s = some r) ∧
        ∀ b u, iterate body i x s = some (b, u) →
          Reaches tokens (fun _ => false) (fun b => I x s.current → Q b) s b u := by
    induction i generalizing x s with
    | zero => exact ⟨fun _ hi => absurd hi (Nat.not_lt_zero _), fun _ _ hr => by cases hr⟩
    | succ i ih =>
      obtain ⟨hends, hreach⟩ := h x _ s rfl hs
      refine ⟨fun hn hi => ?_, fun b y hr => ?_⟩
      · obtain ⟨⟨r, u⟩, hr⟩ := hends hn
        have hu := hreach r u hr
        cases r with
        | more x' =>
          have hlt := hu.taken rfl
          obtain ⟨y, hy⟩ := (ih x' u (hu.moved.ahead.trans hs)).1 (by omega) (by omega)
          exact ⟨y, by rw [iterate_more hr hlt, hy]⟩
        | done b => exact ⟨_, iterate_done hr i⟩
      · obtain ⟨⟨r, u⟩, hbody, hrest⟩ := Option.bind_eq_some_iff.mp
          (show (body x s).bind _ = some (b, y) from hr)
        have hu := hreach r u hbody
        cases r with
        | more x' =>
          change (if u.ahead.length < s.ahead.length then iterate body i x' else failure) u = _ at hrest
          split at hrest
          · have hy := (ih x' u (hu.moved.ahead.trans hs)).2 b y hrest
            exact hu.trans { hy with quiet := fun hb hr hx => hy.quiet hb (hr hx _) }
          · cases hrest
        | done b' =>
          cases hrest
          exact { hu with taken := nofun }
  rintro s rfl hs
  obtain ⟨hends, hreach⟩ := hrounds (s.ahead.length + 1) x s hs
  exact ⟨fun hn => hends hn (Nat.lt_succ_self _), hreach⟩

theorem reads_loop {body : σ → Parser (Step σ β)} {I : σ → Prop}
    (h : ∀ x t', RunsAt n tokens t' (body x) Step.isMore (fun r => I x → r.Meets I Q)) (x : σ) :
    Reads n tokens t (loop body x) (fun b => I x → Q b) := by
  refine reads_rounds (I := fun x _ => I x) (fun x t' => (h x t').mono fun r hr hx => ?_) x
  cases r with
  | more x' => exact fun _ => hr hx
  | done b => exact hr hx

/-- A loop of which no result is needed. -/
theorem reads_skipLoop {body : σ → Parser (Step σ β)} {x : σ}
    (h : ∀ x t', RunsAt n tokens t' (body x) Step.isMore (fun _ => True)) :
    Reads n tokens t (loop body x) (fun _ => True) :=
  (reads_loop (I := fun _ => True) (Q := fun _ => True)
    (fun x t' => (h x t').mono fun r _ _ => by cases r <;> trivial) x).mono fun _ _ => trivial

/-- What a round of a loop that collects gives: only elements with the property. -/
def Step.Collects (P : α → Prop) : Step (List α) (List α) → Prop
  | .more l | .done l => ∀ x ∈ l, P x

theorem reads_collect {body : List α → Parser (Step (List α) (List α))}
    (h : ∀ acc t', RunsAt n tokens t' (body acc) Step.isMore
      (fun r => (∀ x ∈ acc, P x) → r.Collects P)) :
    Reads n tokens t (loop body []) (fun l => ∀ x ∈ l, P x) :=
  (reads_loop (I := fun l => ∀ x ∈ l, P x) (Q := fun l => ∀ x ∈ l, P x)
    (fun acc t' => (h acc t').mono fun r hr hacc => by cases r <;> exact hr hacc) []).mono
    fun _ hl => hl (by simp)

theorem forall_mem_concat {P : α → Prop} {l : List α} {a : α} (ha : P a) (h : ∀ x ∈ l, P x) :
    ∀ x ∈ l ++ [a], P x := by
  intro x hx
  rcases List.mem_append.mp hx with hx | hx
  · exact h x hx
  · rw [List.mem_singleton.mp hx]; exact ha

theorem reads_commaList {closer : Token.Kind} {element : Parser α}
    (h : ∀ t', Reads n tokens t' element P) :
    Reads n tokens t (commaList closer element) (fun l => ∀ x ∈ l, P x) := by
  refine reads_collect fun acc t' => .unlessEnd (.done id) fun _ => (h t').bind fun a _ => ?_
  exact .ifAccept (by decide) (fun _ _ => .pure forall_mem_concat) fun _ => .done forall_mem_concat

/-- A part that takes no token costs the current one, which is not the end token. -/
theorem runsAt_part {part : Parser α} {c : α → β} (hk : t.kind ≠ .eof) (h : Reads n tokens t part P)
    (hc : ∀ a, P a → Q (c a)) :
    RunsAt n tokens t (do
      let before := (← get).ahead.length
      let a ← part
      if (← get).ahead.length = before then
        let _ ← advance
      return c a) v Q := by
  rintro s rfl hs
  obtain ⟨hends, hreach⟩ := h s rfl hs
  have hend (a : α) (u : State) (hu : Reaches tokens (fun _ => false) P s a u) :
      RunsFrom (u.ahead.length + 1) tokens u (if u.ahead.length = s.ahead.length then do
          let _ ← advance
          return c a
        else return c a : Parser β) (fun _ => decide (u.ahead.length = s.ahead.length))
        (fun b => P a → Q b) := by
    split
    · rename_i hlength
      have hcurrent : u.current = s.current := by
        rw [State.current, State.current, hu.moved.ahead.eq_of_length hlength]
      exact RunsAt.take (Q := fun b => P a → Q b) (hcurrent ▸ hk) (fun _ => .pure (hc a)) u rfl
    · rename_i hlength
      exact RunsAt.same (P := fun b => P a → Q b) (decide_eq_false hlength) (hc a) u rfl
  refine ⟨fun hn => ?_, fun b x hr => ?_⟩
  · obtain ⟨⟨a, u⟩, hr⟩ := hends hn
    have hu := hreach a u hr
    obtain ⟨r, hr'⟩ := (hend a u hu (hu.moved.ahead.trans hs)).1 (Nat.lt_succ_self _)
    exact ⟨r, Option.bind_eq_some_iff.mpr ⟨(a, u), hr, hr'⟩⟩
  · obtain ⟨⟨a, u⟩, hr, hr'⟩ := Option.bind_eq_some_iff.mp (show (part s).bind _ = _ from hr)
    have hu := hreach a u hr
    have hx := (hend a u hu (hu.moved.ahead.trans hs)).2 b x hr'
    refine { hu.trans hx with taken := fun _ => ?_ }
    have hle := hu.moved.ahead.length_le
    by_cases hlength : u.ahead.length = s.ahead.length
    · exact Nat.lt_of_lt_of_le (hx.taken (decide_eq_true hlength)) hle
    · have hle' := hx.moved.ahead.length_le
      omega

theorem reads_partsUntil {closer : Token.Kind} {part : Parser (Option α)}
    (h : ∀ t', Reads n tokens t' part (fun o => ∀ x ∈ o, P x)) :
    Reads n tokens t (partsUntil closer part) (fun l => ∀ x ∈ l, P x) := by
  refine reads_collect fun acc t' => .unlessEnd (.done id) fun hk => ?_
  refine runsAt_part hk (h t') fun o ho hacc x hx => ?_
  rcases List.mem_append.mp hx with hx | hx
  · exact hacc x hx
  · exact ho x (Option.mem_toList.mp hx)

end RustLua.Parser
