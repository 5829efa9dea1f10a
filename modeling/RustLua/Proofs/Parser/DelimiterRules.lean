import RustLua.Proofs.Parser.Delimiters

/-! # From the tokens that are left to those that were there

A quiet run takes tokens from the front, so that what it leaves is known only in the end.
`Leads P p Q` therefore goes backwards: the tokens in front of which the run started have
the property `P` if those that it leaves have the property `Q`. A production is followed
from its end to its start, and the stretch it reads is built up on the way. -/
namespace RustLua.Parser

variable {α β σ : Type} {p q : Parser α} {f : α → Parser β} {r' : Region}
variable {P P' R R' : List Token → Prop} {Q : α → List Token → Prop} {S : β → List Token → Prop}
variable {t : Token} {k : Token.Kind} {r : Region}

/-- Every run of `p` moves forward, and a quiet one leads from tokens with `P` to tokens
with `Q`. -/
def Leads (P : List Token → Prop) (p : Parser α) (Q : α → List Token → Prop) : Prop :=
  ∀ s a u, p s = some (a, u) → Moved s u ∧ (u.bag = s.bag → Q a u.ahead → P s.ahead)

/-- The same for the states whose current token is `t`. -/
def LeadsAt (t : Token) (P : List Token → Prop) (p : Parser α) (Q : α → List Token → Prop) :
    Prop :=
  ∀ s a u, s.current = t → p s = some (a, u) →
    Moved s u ∧ (u.bag = s.bag → Q a u.ahead → P s.ahead)

/-! ## Rules -/

theorem Leads.at (h : Leads P p Q) (t : Token) : LeadsAt t P p Q := fun s a u _ hr => h s a u hr

theorem Leads.ofAt (h : ∀ t, LeadsAt t P p Q) : Leads P p Q := fun s a u hr => h _ s a u rfl hr

theorem Leads.pre (h : Leads P' p Q) (hP : ∀ x, P' x → P x) : Leads P p Q := by
  intro s a u hr
  obtain ⟨hm, hb⟩ := h s a u hr
  exact ⟨hm, fun hq hQ => hP _ (hb hq hQ)⟩

theorem LeadsAt.pre (h : LeadsAt t P' p Q) (hP : ∀ x, P' x → P x) : LeadsAt t P p Q := by
  intro s a u hc hr
  obtain ⟨hm, hb⟩ := h s a u hc hr
  exact ⟨hm, fun hq hQ => hP _ (hb hq hQ)⟩

theorem Leads.pure {a : α} (h : ∀ x, Q a x → P x) : Leads P (pure a) Q := by
  intro s b u hr
  cases hr
  exact ⟨.refl s, fun _ hQ => h _ hQ⟩

theorem LeadsAt.pure {a : α} (h : ∀ x, Q a x → P x) : LeadsAt t P (pure a) Q :=
  (Leads.pure h).at t

/-- What is decided without taking a token may rely on the current one. -/
theorem LeadsAt.pureHere {a : α} (h : ∀ x, x.headD beyond = t → Q a x → P x) :
    LeadsAt t P (Pure.pure a) Q := by
  intro s b u hc hr
  cases hr
  exact ⟨.refl s, fun _ hQ => h _ hc hQ⟩

theorem Leads.failure : Leads P failure Q := by
  intro s a u hr
  cases hr

theorem LeadsAt.bind (hp : LeadsAt t P p Q) (hf : ∀ a, Leads (Q a) (f a) S) :
    LeadsAt t P (p >>= f) S := by
  intro s b v hc hr
  obtain ⟨⟨a, u⟩, hpr, hfr⟩ := Option.bind_eq_some_iff.mp hr
  obtain ⟨hsu, hP⟩ := hp s a u hc hpr
  obtain ⟨huv, hQ⟩ := hf a u b v hfr
  refine ⟨hsu.trans huv, fun hq hS => ?_⟩
  obtain ⟨hq, hq'⟩ := hsu.quiet huv hq
  exact hP hq (hQ hq' hS)

theorem Leads.bind (hp : Leads P p Q) (hf : ∀ a, Leads (Q a) (f a) S) : Leads P (p >>= f) S :=
  .ofAt fun t => (hp.at t).bind hf

theorem Leads.map {g : α → β} (hp : Leads P p Q) (hg : ∀ a x, S (g a) x → Q a x) :
    Leads P (g <$> p) S := by
  rw [← bind_pure_comp]
  exact hp.bind fun a => .pure (hg a)

theorem LeadsAt.map {g : α → β} (hp : LeadsAt t P p Q) (hg : ∀ a x, S (g a) x → Q a x) :
    LeadsAt t P (g <$> p) S := by
  rw [← bind_pure_comp]
  exact hp.bind fun a => .pure (hg a)

theorem Leads.ite {c : Prop} [Decidable c] (hp : c → Leads P p Q) (hq : ¬c → Leads P q Q) :
    Leads P (if c then p else q) Q := by
  split
  · exact hp ‹_›
  · exact hq ‹_›

theorem LeadsAt.ite {c : Prop} [Decidable c] (hp : c → LeadsAt t P p Q)
    (hq : ¬c → LeadsAt t P q Q) : LeadsAt t P (if c then p else q) Q := by
  split
  · exact hp ‹_›
  · exact hq ‹_›

theorem LeadsAt.withNoStruct (h : LeadsAt t P p Q) (flag : Bool) :
    LeadsAt t P (withNoStruct flag p) Q := by
  intro s a u hc hr
  obtain ⟨⟨b, v⟩, hpr, he⟩ := Option.bind_eq_some_iff.mp
    (show (p { s with noStruct := flag }).bind _ = _ from hr)
  cases he
  obtain ⟨hm, hb⟩ := h { s with noStruct := flag } _ _ hc hpr
  exact ⟨⟨hm.ahead, hm.reports, rfl⟩, hb⟩

theorem Leads.withNoStruct (h : Leads P p Q) (flag : Bool) : Leads P (withNoStruct flag p) Q :=
  .ofAt fun t => (h.at t).withNoStruct flag

/-! ## Looking at the tokens -/

theorem Leads.onGet {f : State → Parser α} (h : ∀ s, LeadsAt s.current P (f s) Q) :
    Leads P (get >>= f) Q :=
  fun s a u hr => h s s a u rfl hr

theorem Leads.onCurrent {f : Token → Parser α} (h : ∀ t, LeadsAt t P (f t) Q) :
    Leads P (current >>= f) Q :=
  fun s a u hr => h s.current s a u rfl hr

theorem Leads.onKind {f : Token.Kind → Parser α} (h : ∀ t, LeadsAt t P (f t.kind) Q) :
    Leads P (currentKind >>= f) Q :=
  fun s a u hr => h s.current s a u rfl hr

theorem LeadsAt.onPeek {n : Nat} {f : Token.Kind → Parser α} (h : ∀ k, LeadsAt t P (f k) Q) :
    LeadsAt t P (peekKind n >>= f) Q :=
  fun s a u hc hr => h (s.peek n).kind s a u hc hr

theorem Leads.onCheck (hp : ∀ t : Token, t.kind = k → LeadsAt t P p Q) (hq : Leads P q Q) :
    Leads P (check k >>= fun b => if b then p else q) Q := by
  intro s a u hr
  change (if decide (s.current.kind = k) = true then p else q) s = some (a, u) at hr
  split at hr
  · exact hp s.current (of_decide_eq_true ‹_›) s a u rfl hr
  · exact hq s a u hr

theorem Leads.onEither {k' : Token.Kind}
    (hp : ∀ t : Token, t.kind = k ∨ t.kind = k' → LeadsAt t P p Q) (hq : Leads P q Q) :
    Leads P (check k >>= fun b => check k' >>= fun c => if b || c then p else q) Q := by
  intro s a u hr
  change (if (decide (s.current.kind = k) || decide (s.current.kind = k')) = true
    then p else q) s = some (a, u) at hr
  split at hr
  · rename_i hc
    simp only [Bool.or_eq_true, decide_eq_true_eq] at hc
    exact hp s.current hc s a u rfl hr
  · exact hq s a u hr

theorem Leads.onWord {word : Bytes} (hp : ∀ t : Token, t.kind = .ident → LeadsAt t P p Q)
    (hq : Leads P q Q) : Leads P (checkWord word >>= fun b => if b then p else q) Q := by
  intro s a u hr
  change (if decide (s.current.kind = .ident ∧ s.current.literal = word) = true then p else q) s =
    some (a, u) at hr
  split at hr
  · rename_i hc
    exact hp s.current (of_decide_eq_true hc).1 s a u rfl hr
  · exact hq s a u hr

theorem Leads.ignoreCheck {f : Bool → Parser α} (h : ∀ b, Leads P (f b) Q) :
    Leads P (check k >>= f) Q :=
  fun s a u hr => h _ s a u hr

/-- A parser that only looks. -/
def Looks (p : Parser α) : Prop := ∀ s a u, p s = some (a, u) → u = s

theorem Looks.pure (a : α) : Looks (pure a) := by
  intro s b u hr
  cases hr
  rfl

theorem Looks.onGet {f : State → Parser α} (h : ∀ s, Looks (f s)) : Looks (get >>= f) :=
  fun s a u hr => h s s a u hr

theorem Looks.onKind {f : Token.Kind → Parser α} (h : ∀ k, Looks (f k)) :
    Looks (currentKind >>= f) :=
  fun s a u hr => h _ s a u hr

theorem Looks.onPeek {n : Nat} {f : Token.Kind → Parser α} (h : ∀ k, Looks (f k)) :
    Looks (peekKind n >>= f) :=
  fun s a u hr => h _ s a u hr

theorem Leads.afterLook (hp : Looks p) (hf : ∀ a, Leads P (f a) S) : Leads P (p >>= f) S := by
  intro s b v hr
  obtain ⟨⟨a, u⟩, hpr, hfr⟩ := Option.bind_eq_some_iff.mp hr
  obtain rfl := hp s a u hpr
  exact hf a u b v hfr

/-- Parts up to a closing token or the end: where neither is seen, there is a token. -/
theorem Leads.unlessClosed (hp : Leads P p Q)
    (hq : ∀ t : Token, t.kind ≠ k → t.kind ≠ .eof → LeadsAt t P q Q) :
    Leads P (check k >>= fun b => check .eof >>= fun c => if b || c then p else q) Q := by
  intro s a u hr
  change (if (decide (s.current.kind = k) || decide (s.current.kind = .eof)) = true
    then p else q) s = some (a, u) at hr
  split at hr
  · exact hp s a u hr
  · rename_i hc
    simp only [Bool.or_eq_true, decide_eq_true_eq, not_or] at hc
    exact hq s.current hc.1 hc.2 s a u rfl hr

/-! ## Taking tokens -/

theorem State.ahead_of_current {s : State} (hc : s.current = t) (ht : t.kind ≠ .eof) :
    ∃ rest, s.ahead = t :: rest := by
  unfold State.current at hc
  cases hs : s.ahead with
  | nil =>
    rw [hs] at hc
    exact absurd (congrArg Token.kind hc.symm) ht
  | cons a rest =>
    rw [hs] at hc
    exact ⟨rest, by rw [← hc]; rfl⟩

theorem LeadsAt.take {f : Token → Parser α} (ht : t.kind ≠ .eof) (h : ∀ x, R x → P (t :: x))
    (hf : Leads R (f t) Q) : LeadsAt t P (advance >>= f) Q := by
  intro s a u hc hr
  obtain ⟨rest, hs⟩ := State.ahead_of_current hc ht
  obtain ⟨⟨b, v⟩, hv, hr⟩ := Option.bind_eq_some_iff.mp hr
  have hmoved := (advance_eq_some hv).2.1
  rw [advance_cons hs] at hv
  cases hv
  obtain ⟨hm, hb⟩ := hf _ _ _ hr
  refine ⟨hmoved.trans hm, fun hq hQ => ?_⟩
  rw [hs]
  exact h _ (hb hq hQ)

theorem Leads.expect {f : Token → Parser α} (hk : k ≠ .eof)
    (h : ∀ (t : Token) x, t.kind = k → R x → P (t :: x)) (hf : ∀ t, Leads R (f t) Q) :
    Leads P (expect k >>= f) Q := by
  intro s a u hr
  by_cases hc : s.current.kind = k
  · refine LeadsAt.take (hc ▸ hk) (h s.current · hc) (hf s.current) s a u rfl ?_
    change ((if s.current.kind = k then advance else _ : Parser Token) >>= f) s = _ at hr
    rwa [if_pos hc] at hr
  · -- the report stays, so that the run is not quiet
    obtain ⟨⟨b, v⟩, hv, hr⟩ := Option.bind_eq_some_iff.mp hr
    change (if s.current.kind = k then advance else _ : Parser Token) s = _ at hv
    rw [if_neg hc] at hv
    have hloud : Loud (do report (.expected k.name s.current); return s.current) :=
      (loud_report _).next fun _ => .pure _
    obtain ⟨hsv, hne⟩ := hloud _ _ _ hv
    obtain ⟨hvu, _⟩ := hf _ _ _ _ hr
    exact ⟨hsv.trans hvu, fun hq _ => (hne (hsv.quiet hvu hq).1).elim⟩

theorem Leads.accepted {f : Bool → Parser α} (hk : k ≠ .eof)
    (h : ∀ (t : Token) x, t.kind = k → R x → P (t :: x)) (htrue : Leads R (f true) Q)
    (hfalse : Leads P (f false) Q) : Leads P (accept k >>= f) Q := by
  intro s a u hr
  obtain ⟨⟨b, v⟩, hv, hr⟩ := Option.bind_eq_some_iff.mp hr
  by_cases hc : s.current.kind = k
  · change (if decide (s.current.kind = k) = true then _ else _ : Parser Bool) s = _ at hv
    rw [if_pos (decide_eq_true hc)] at hv
    obtain ⟨⟨b', v'⟩, hadvance, hv⟩ := Option.bind_eq_some_iff.mp
      (show (advance s).bind _ = _ from hv)
    cases hv
    have htake : LeadsAt s.current P (advance >>= fun _ => f true) Q :=
      .take (hc ▸ hk) (h s.current · hc) htrue
    exact htake s a u rfl (Option.bind_eq_some_iff.mpr ⟨_, hadvance, hr⟩)
  · rw [accept_refused hc] at hv
    cases hv
    exact hfalse s a u hr

theorem Leads.ifAccept (hk : k ≠ .eof) (h : ∀ (t : Token) x, t.kind = k → R x → P (t :: x))
    (hp : Leads R p Q) (hq : Leads P q Q) :
    Leads P (accept k >>= fun b => if b then p else q) Q :=
  .accepted hk h hp hq

/-- A token that may be there or not. -/
theorem Leads.maybe {f : Bool → Parser α} (hk : k ≠ .eof)
    (h : ∀ (t : Token) x, t.kind = k → P x → P (t :: x)) (hf : ∀ b, Leads P (f b) Q) :
    Leads P (accept k >>= f) Q :=
  .accepted hk h (hf true) (hf false)

/-! ## Two tokens at once -/

/-- The same for the states whose next two tokens are `t` and `t'`. -/
def LeadsPair (t t' : Token) (P : List Token → Prop) (p : Parser α)
    (Q : α → List Token → Prop) : Prop :=
  ∀ s a u, s.current = t → s.peek 1 = t' → p s = some (a, u) →
    Moved s u ∧ (u.bag = s.bag → Q a u.ahead → P s.ahead)

theorem Leads.onPair {c : Token.Kind → Bool}
    (hp : ∀ t t' : Token, t.kind = k → c t'.kind = true → LeadsPair t t' P p Q)
    (hq : Leads P q Q) :
    Leads P (check k >>= fun b => peekKind 1 >>= fun k' => if b && c k' then p else q) Q := by
  intro s a u hr
  change (if (decide (s.current.kind = k) && c (s.peek 1).kind) = true then p else q) s =
    some (a, u) at hr
  split at hr
  · rename_i hc
    simp only [Bool.and_eq_true, decide_eq_true_eq] at hc
    exact hp s.current (s.peek 1) hc.1 hc.2 s a u rfl rfl hr
  · exact hq s a u hr

theorem LeadsPair.take {t' : Token} {f : Token → Parser α} (ht : t.kind ≠ .eof)
    (h : ∀ x, R x → P (t :: x)) (hf : LeadsAt t' R (f t) Q) :
    LeadsPair t t' P (advance >>= f) Q := by
  intro s a u hc hc' hr
  obtain ⟨rest, hs⟩ := State.ahead_of_current hc ht
  obtain ⟨⟨b, v⟩, hv, hr⟩ := Option.bind_eq_some_iff.mp hr
  have hmoved := (advance_eq_some hv).2.1
  rw [advance_cons hs] at hv
  cases hv
  have hnext : rest.headD beyond = t' := by
    rw [← hc', State.peek, hs]
    cases rest <;> rfl
  obtain ⟨hm, hb⟩ := hf { s with ahead := rest, previous := t.kind } _ _ hnext hr
  refine ⟨hmoved.trans hm, fun hq hQ => ?_⟩
  rw [hs]
  exact h _ (hb hq hQ)

theorem LeadsPair.expect {t' : Token} {f : Token → Parser α} (ht : t.kind = k) (hk : k ≠ .eof)
    (h : ∀ x, R x → P (t :: x)) (hf : LeadsAt t' R (f t) Q) :
    LeadsPair t t' P (expect k >>= f) Q := by
  intro s a u hc hc' hr
  change ((if s.current.kind = k then advance else _ : Parser Token) >>= f) s = _ at hr
  rw [if_pos (by rw [hc, ht])] at hr
  exact LeadsPair.take (ht ▸ hk) h hf s a u hc hc' hr

theorem LeadsPair.withNoStruct {t' : Token} (h : LeadsPair t t' P p Q) (flag : Bool) :
    LeadsPair t t' P (withNoStruct flag p) Q := by
  intro s a u hc hc' hr
  obtain ⟨⟨b, v⟩, hpr, he⟩ := Option.bind_eq_some_iff.mp
    (show (p { s with noStruct := flag }).bind _ = _ from hr)
  cases he
  obtain ⟨hm, hb⟩ := h { s with noStruct := flag } _ _ hc hc' hpr
  exact ⟨⟨hm.ahead, hm.reports, rfl⟩, hb⟩

/-! ## Reports -/

/-- A run that reports is not quiet. -/
theorem Leads.loud (h : Loud p) : Leads P p Q := by
  intro s a u hr
  obtain ⟨hm, hne⟩ := h s a u hr
  exact ⟨hm, fun hq _ => (hne hq).elim⟩

theorem leads_report {e : SyntaxError} {Q : Unit → List Token → Prop} : Leads P (report e) Q :=
  .loud (loud_report e)

theorem leads_report_pure {e : SyntaxError} {b : β} : Leads P (do report e; return b) S :=
  .loud ((loud_report e).next fun _ => .pure b)

/-! ## Loops -/

theorem leads_iterate {body : σ → Parser (Step σ β)} {I : List Token → Prop}
    (h : ∀ x, Leads I (body x) fun r l => r.Meets (fun _ => I l) (fun b => S b l)) (n : Nat)
    (x : σ) : Leads I (iterate body n x) S := by
  induction n generalizing x with
  | zero => exact .failure
  | succ n ih =>
    refine .onGet fun s => Leads.at ((h x).bind fun r => ?_) _
    cases r with
    | more x' => exact .onGet fun _ => .ite (fun _ => (ih x').at _) fun _ => Leads.failure.at _
    | done b => exact .pure fun _ hb => hb

/-- A loop whose first round gives more than the others. -/
theorem leads_loop_first {body : σ → Parser (Step σ β)} {I : List Token → Prop} {x : σ}
    (hfirst : Leads P (body x) fun r l => r.Meets (fun _ => I l) (fun b => S b l))
    (h : ∀ x, Leads I (body x) fun r l => r.Meets (fun _ => I l) (fun b => S b l)) :
    Leads P (loop body x) S := by
  refine .onGet fun s => Leads.at ?_ _
  refine .onGet fun s => Leads.at (hfirst.bind fun r => ?_) _
  cases r with
  | more x' =>
    exact .onGet fun _ => .ite (fun _ => (leads_iterate h _ x').at _) fun _ => Leads.failure.at _
  | done b => exact .pure fun _ hb => hb

/-- A loop keeps `I` of what is left, from the last round to the first. -/
theorem leads_loop {body : σ → Parser (Step σ β)} {I : List Token → Prop} {x : σ}
    (h : ∀ x, Leads I (body x) fun r l => r.Meets (fun _ => I l) (fun b => S b l)) :
    Leads I (loop body x) S :=
  .onGet fun _ => (leads_iterate h _ x).at _

/-! ## Stretches from their ends -/

theorem Stretch.length_le {runs : List (List Token)} {x y : List Token} (h : Stretch r runs x y) :
    y.length ≤ x.length := by
  induction h with
  | done => exact Nat.le_refl _
  | _ => simp only [List.length_cons, List.length_append] at *; omega

/-- Tokens that start with a stretch, and `R` holds behind it. -/
def Before (r : Region) (R : List Token → Prop) (x : List Token) : Prop :=
  ∃ runs y, Stretch r runs x y ∧ R y

/-- The same with at least one token in the stretch. -/
def Past (r : Region) (R : List Token → Prop) (x : List Token) : Prop :=
  ∃ runs y, Stretch r runs x y ∧ y.length < x.length ∧ R y

/-- Tokens that start with one of this kind, and `R` holds behind it. -/
def Closing (k : Token.Kind) (R : List Token → Prop) (x : List Token) : Prop :=
  ∃ c y, x = c :: y ∧ c.kind = k ∧ R y

variable {x : List Token} {run : List Token}

theorem Past.before (h : Past r R x) : Before r R x := by
  obtain ⟨runs, y, hs, _, hR⟩ := h
  exact ⟨runs, y, hs, hR⟩

theorem Before.here (h : R x) : Before r R x := ⟨[], x, .done, h⟩

theorem closing_here (t : Token) (x : List Token) (ht : t.kind = k) (h : R x) :
    Before r (Closing k R) (t :: x) :=
  .here ⟨t, x, rfl, ht, h⟩

theorem past_token (hk : r.reads k = true) (t : Token) (x : List Token) (ht : t.kind = k)
    (h : Before r R x) : Past r R (t :: x) := by
  obtain ⟨runs, y, hs, hR⟩ := h
  exact ⟨runs, y, .plain (by rw [ht]; exact hk) hs, Nat.lt_succ_of_le hs.length_le, hR⟩

theorem before_token (hk : r.reads k = true) (t : Token) (x : List Token) (ht : t.kind = k)
    (h : Before r R x) : Before r R (t :: x) :=
  (past_token hk t x ht h).before

/-- A token that may be there or not, in front of at least one more. -/
theorem Leads.maybePast {f : Bool → Parser α} (hk : k ≠ .eof) (hr : r.reads k = true)
    (hf : ∀ b, Leads (Past r R) (f b) Q) : Leads (Past r R) (accept k >>= f) Q :=
  .accepted hk (past_token hr) ((hf true).pre fun _ => Past.before) (hf false)

/-- Between delimiters that are read, a stretch ends in front of the closing one. -/
theorem past_open (hk : r.nests k = true) (t : Token) (x : List Token) (ht : t.kind = k)
    (h : Before r.inner (Closing (closerOf k) (Before r R)) x) : Past r R (t :: x) := by
  obtain ⟨runs, y, hs, c, z, rfl, hc, runs', w, hs', hR⟩ := h
  have hlength := hs.length_le
  have hlength' := hs'.length_le
  rw [List.length_cons] at hlength
  refine ⟨runs ++ runs', w, .nested (by rw [ht]; exact hk) hs (by rw [hc, ht]) hs', ?_, hR⟩
  rw [List.length_cons]
  omega

theorem Group.length_pos {y : List Token} (h : Group k run y) : 0 < run.length := by
  obtain ⟨⟨t, inside, rfl, _⟩, _⟩ := h
  exact Nat.succ_pos _

theorem past_group (hk : r.skips k = true) (hg : Group k run x) (h : Before r R x) :
    Past r R (run ++ x) := by
  obtain ⟨runs, y, hs, hR⟩ := h
  have hlength := hs.length_le
  have hpos := hg.length_pos
  refine ⟨run :: runs, y, .group hk hg hs, ?_, hR⟩
  rw [List.length_append]
  omega

theorem before_generics (hg : Generics run x) (h : Before .type R x) :
    Before .type R (run ++ x) := by
  obtain ⟨runs, y, hs, hR⟩ := h
  exact ⟨run :: runs, y, .generics hg hs, hR⟩

/-! ## Skipping -/

theorem skipBalanced_eq_some {s u : State} (h : skipBalanced s = some ((), u)) :
    u.ahead = s.ahead.drop (balancedWidth 0 s.ahead) := by
  obtain ⟨v, hv, hahead, _⟩ := skip_eq_some (balancedWidth 0 s.ahead) s
  cases hv.symm.trans (show skip _ s = _ from h)
  exact hahead

theorem leadsAt_skipBalanced (ho : opens t.kind = true)
    (h : ∀ run x, Group t.kind run x → R x → P (run ++ x)) :
    LeadsAt t P skipBalanced (fun _ => R) := by
  intro s a u hc hr
  refine ⟨moves_skipBalanced s a u hr, fun _ hR => ?_⟩
  obtain ⟨rest, hs⟩ := State.ahead_of_current hc (ne_eof_of_opens ho)
  have hu := skipBalanced_eq_some hr
  rw [hs] at hu ⊢
  have hg : DelimitedGroup ((t :: rest).take (balancedWidth 0 (t :: rest))) u.ahead :=
    hu ▸ delimitedGroup_balancedWidth ho
  rw [← List.take_append_drop (balancedWidth 0 (t :: rest)) (t :: rest), ← hu]
  refine h _ _ ⟨⟨t, rest.take (balancedWidth 0 (t :: rest) - 1), ?_, rfl, ho⟩, hg⟩ hR
  have hwidth : balancedWidth 0 (t :: rest) = balancedWidth 1 rest + 1 := by
    rw [balancedWidth, if_neg (ne_eof_of_opens ho)]
    simp [ho, Nat.add_comm]
  rw [hwidth, List.take_succ_cons, Nat.add_sub_cancel]

@[simp] theorem angleNesting_nil : angleNesting [] = 0 := rfl

@[simp] theorem angleNesting_cons (t : Token) (tokens : List Token) :
    angleNesting (t :: tokens) = angles t.kind + angleNesting tokens := by
  simp [angleNesting]

/-- The tokens that cut generic arguments short. -/
def cutsAngles (k : Token.Kind) : Prop := k = .eof ∨ k = .semicolon ∨ k = .braceOpen

/-- The depth behind the first token is the old one and what the token opens, but never
less than none. -/
theorem anglesWidth_cons (depth : Nat) (rest : List Token) (hk : ¬cutsAngles t.kind) :
    ∃ inner : Nat, (inner : Int) = max 0 (depth + angles t.kind) ∧
      anglesWidth depth (t :: rest) =
        if inner = 0 then (1, false)
        else ((anglesWidth inner rest).1 + 1, (anglesWidth inner rest).2) := by
  unfold cutsAngles at hk
  simp only [not_or] at hk
  rw [anglesWidth]
  split
  · exact absurd ‹_› hk.1
  · exact absurd ‹_› hk.2.1
  · exact absurd ‹_› hk.2.2
  · extract_lets inner
    refine ⟨inner, ?_, rfl⟩
    unfold inner angles
    split <;> simp_all <;> omega

/-- What is skipped while `depth` angle brackets are open. -/
theorem anglesWidth_open {depth : Nat} (hd : 0 < depth) (tokens : List Token) :
    (∀ n < (anglesWidth depth tokens).1, 0 < depth + angleNesting (tokens.take n)) ∧
    (∀ t ∈ tokens.take (anglesWidth depth tokens).1, ¬cutsAngles t.kind) ∧
    ((anglesWidth depth tokens).2 = false →
      depth + angleNesting (tokens.take (anglesWidth depth tokens).1) ≤ 0 ∨
      ((tokens.drop (anglesWidth depth tokens).1).headD beyond).kind = .eof) := by
  induction tokens generalizing depth with
  | nil => simp [anglesWidth, beyond]
  | cons t rest ih =>
    by_cases hcut : cutsAngles t.kind
    · rcases hcut with hk | hk | hk <;> simp [anglesWidth, hk]
    obtain ⟨inner, hinner, hwidth⟩ := anglesWidth_cons depth rest hcut
    by_cases hzero : inner = 0
    · rw [if_pos hzero] at hwidth
      rw [hwidth]
      refine ⟨fun n hn => ?_, by simpa using hcut, fun _ => .inl ?_⟩
      · obtain rfl : n = 0 := by omega
        simpa using hd
      · simp only [List.take_succ_cons, List.take_zero, angleNesting_cons, angleNesting_nil]
        omega
    · obtain ⟨hopen, hinside, hend⟩ := ih (Nat.pos_of_ne_zero hzero)
      rw [if_neg hzero] at hwidth
      rw [hwidth]
      simp only [List.take_succ_cons, List.drop_succ_cons, angleNesting_cons]
      refine ⟨fun n hn => ?_, ?_, fun hf => ?_⟩
      · cases n with
        | zero => simpa using hd
        | succ n =>
          have hn' := hopen n (by omega)
          rw [List.take_succ_cons, angleNesting_cons]
          omega
      · rw [List.forall_mem_cons]
        exact ⟨hcut, hinside⟩
      · rcases hend hf with hend | hend
        · left; omega
        · exact .inr hend

/-- What is skipped from an opening angle bracket on is a list of generic arguments, unless
it is cut short. -/
theorem generics_anglesWidth {rest : List Token} (hk : t.kind = .less)
    (hcut : (anglesWidth 0 (t :: rest)).2 = false) :
    Generics ((t :: rest).take (anglesWidth 0 (t :: rest)).1)
      ((t :: rest).drop (anglesWidth 0 (t :: rest)).1) := by
  have hwidth : anglesWidth 0 (t :: rest) =
      ((anglesWidth 1 rest).1 + 1, (anglesWidth 1 rest).2) := by
    rw [anglesWidth]
    simp [hk]
  rw [hwidth] at hcut ⊢
  obtain ⟨hopen, hinside, hend⟩ := anglesWidth_open Nat.one_pos rest
  have hfirst : angles t.kind = 1 := by rw [hk]; rfl
  simp only [List.take_succ_cons, List.drop_succ_cons]
  refine ⟨⟨t, _, rfl, hk⟩, fun n hpos hn => ?_, ?_, ?_⟩
  · obtain ⟨m, rfl⟩ : ∃ m, n = m + 1 := ⟨n - 1, by omega⟩
    have hm : m < (anglesWidth 1 rest).1 := by
      simp only [List.length_cons, List.length_take] at hn
      omega
    have hn' := hopen m hm
    rw [List.take_succ_cons, angleNesting_cons, List.take_take, Nat.min_eq_left (by omega), hfirst]
    omega
  · rw [List.forall_mem_cons]
    refine ⟨by simp [hk], fun u hu => ?_⟩
    simpa [cutsAngles] using hinside u hu
  · rw [angleNesting_cons, hfirst]
    rcases hend hcut with hend | hend
    · left; omega
    · exact .inr hend

theorem leadsAt_skipAngles (hk : t.kind = .less)
    (h : ∀ run x, Generics run x → R x → P (run ++ x)) :
    LeadsAt t P skipAngles (fun _ => R) := by
  intro s a u hc hr
  refine ⟨moves_skipAngles s a u hr, fun hq hR => ?_⟩
  obtain ⟨rest, hs⟩ := State.ahead_of_current hc (by rw [hk]; decide)
  obtain ⟨v, hv, hahead, hbag, _⟩ := skip_eq_some (anglesWidth 0 s.ahead).1 s
  obtain ⟨⟨_, w⟩, hw, hr⟩ := Option.bind_eq_some_iff.mp
    (show (skip (anglesWidth 0 s.ahead).1 s).bind _ = _ from hr)
  cases hv.symm.trans hw
  change (if (anglesWidth 0 s.ahead).2 = true then report .openGenerics else pure () :
    Parser Unit) v = _ at hr
  split at hr
  · exact ((loud_report _ _ _ _ hr).2 (hq.trans hbag.symm)).elim
  · rename_i hcut
    cases hr
    rw [hs] at hahead hcut ⊢
    have hg := generics_anglesWidth hk (Bool.eq_false_iff.mpr hcut)
    rw [← hahead] at hg
    rw [← List.take_append_drop (anglesWidth 0 (t :: rest)).1 (t :: rest), ← hahead]
    exact h _ _ hg hR

/-- Tokens that start with a group that is skipped, and `R` holds behind it. -/
def Skipped (k : Token.Kind) (R : List Token → Prop) (x : List Token) : Prop :=
  ∃ run y, x = run ++ y ∧ Group k run y ∧ R y

theorem leadsAt_skipped (hk : t.kind = k) (ho : opens k = true) :
    LeadsAt t (Skipped k R) skipBalanced (fun _ => R) := by
  subst hk
  exact leadsAt_skipBalanced ho fun run x hg hR => ⟨run, x, rfl, hg, hR⟩

/-- What stands behind the mark of an attribute. -/
def AfterPound (R : List Token → Prop) (x : List Token) : Prop :=
  Skipped .bracketOpen R x ∨ Closing .bang (Skipped .bracketOpen R) x

theorem leads_skipAttributes
    (h : ∀ (t : Token) x, t.kind = .pound → AfterPound R x → R (t :: x)) :
    Leads R skipAttributes (fun _ => R) := by
  refine leads_loop fun _ => .ifAccept (by decide) h ?_ (.pure fun _ h => h)
  have hgroup : Leads (Skipped .bracketOpen R)
      (do if ← check .bracketOpen then
            skipBalanced
            return .more ()
          else
            report (.expected "[ after #" (← current))
            return .done ())
      (fun (r : Step Unit Unit) l => r.Meets (fun _ => R l) (fun _ => R l)) := by
    refine .onCheck (fun t ht => ?_) (.onCurrent fun t => leads_report_pure.at t)
    exact (leadsAt_skipped ht rfl).bind fun _ => .pure fun _ h => h
  exact .accepted (by decide) (fun t x ht h => .inr ⟨t, x, rfl, ht, h⟩) hgroup
    (hgroup.pre fun _ h => .inl h)

/-- Tokens of which the first ones are passed up to one of the `stops`, and `R` holds there. -/
def PassedTo (stops groups : List Token.Kind) (R : List Token → Prop) (x : List Token) : Prop :=
  ∃ run y, x = run ++ y ∧ Passed stops groups run y ∧ R y

section Passing

variable {stops groups : List Token.Kind}

theorem passedTo_here (hk : (x.headD beyond).kind ∈ .eof :: stops) (h : R x) :
    PassedTo stops groups R x :=
  ⟨[], x, rfl, .done hk, h⟩

theorem passedTo_token (hk : t.kind ∉ .eof :: (stops ++ groups))
    (h : PassedTo stops groups R x) : PassedTo stops groups R (t :: x) := by
  obtain ⟨run, y, rfl, hp, hR⟩ := h
  exact ⟨t :: run, y, rfl, .token hk hp, hR⟩

theorem passedTo_group (hk : k ∈ groups) (hg : Group k run x) (h : PassedTo stops groups R x) :
    PassedTo stops groups R (run ++ x) := by
  obtain ⟨run', y, rfl, hp, hR⟩ := h
  exact ⟨run ++ run', y, (List.append_assoc ..).symm, .group hk hg hp, hR⟩

theorem passedTo_generics (hk : .less ∈ groups) (hg : Generics run x)
    (h : PassedTo stops groups R x) : PassedTo stops groups R (run ++ x) := by
  obtain ⟨run', y, rfl, hp, hR⟩ := h
  exact ⟨run ++ run', y, (List.append_assoc ..).symm, .generics hk hg hp, hR⟩

end Passing

theorem Group.head (h : Group k run x) : ((run ++ x).headD beyond).kind = k := by
  obtain ⟨⟨t, inside, rfl, hk, _⟩, _⟩ := h
  exact hk

/-! ## Parsers that read a region -/

/-- A quiet run reads a stretch of the region. -/
def Spans (r : Region) (p : Parser α) : Prop := ∀ R, Leads (Before r R) p (fun _ => Before r R)

/-- The same with at least one token in the stretch. -/
def SpansPast (r : Region) (p : Parser α) : Prop := ∀ R, Leads (Past r R) p (fun _ => Before r R)

theorem SpansPast.spans (h : SpansPast r p) : Spans r p := fun R => (h R).pre fun _ => Past.before

theorem Spans.map (h : Spans r p) (g : α → β) : Spans r (g <$> p) :=
  fun R => (h R).map fun _ _ hx => hx

theorem SpansPast.map (h : SpansPast r p) (g : α → β) : SpansPast r (g <$> p) :=
  fun R => (h R).map fun _ _ hx => hx

theorem Spans.withNoStruct (h : Spans r p) (flag : Bool) : Spans r (withNoStruct flag p) :=
  fun R => (h R).withNoStruct flag

theorem leads_textOf {p : Parser Unit} (h : Leads P p (fun _ => R)) :
    Leads P (textOf p) (fun _ => R) := by
  refine .onGet fun s => Leads.at ?_ _
  exact h.bind fun _ => .onGet fun _ => Leads.at (.pure fun _ hx => hx) _

theorem spans_commaList {closer : Token.Kind} (hr : r.reads .comma = true) (h : Spans r p) :
    Spans r (commaList closer p) := by
  intro R
  refine leads_loop fun acc => .unlessClosed (.pure fun _ hx => hx) fun t _ _ => ?_
  refine ((h R).bind fun a => ?_).at t
  exact .ifAccept (by decide) (before_token hr) (.pure fun _ hx => hx) (.pure fun _ hx => hx)

/-- Parts that take a token each, in front of the closing token and of the end apart. -/
theorem spans_partsUntil {closer : Token.Kind} {part : Parser (Option α)}
    (h : ∀ t : Token, t.kind ≠ closer → t.kind ≠ .eof → ∀ R,
      LeadsAt t (Past r R) part (fun _ => Before r R)) : Spans r (partsUntil closer part) := by
  intro R
  refine leads_loop fun acc => .unlessClosed (.pure fun _ hx => hx) fun t hc he => ?_
  intro s b w hs hr
  obtain ⟨⟨a, u⟩, hpart, hr⟩ := Option.bind_eq_some_iff.mp (show (part s).bind _ = _ from hr)
  change (if u.ahead.length = s.ahead.length then _ else _ :
    Parser (Step (List α) (List α))) u = _ at hr
  obtain ⟨hsu, hR⟩ := h t hc he R s a u hs hpart
  split at hr
  · rename_i hlength
    obtain ⟨⟨_, v⟩, hv, hr⟩ := Option.bind_eq_some_iff.mp (show (advance u).bind _ = _ from hr)
    cases hr
    obtain ⟨_, huv, hquiet⟩ := advance_eq_some hv
    refine ⟨hsu.trans huv, fun hq _ => ?_⟩
    -- a quiet part takes a token, so that none is taken in its place
    obtain ⟨_, y, _, hlt, rfl⟩ := (h t hc he (· = u.ahead) s a u hs hpart).2
      (hquiet.symm.trans hq) (.here rfl)
    omega
  · cases hr
    exact ⟨hsu, fun hq hx => (hR hq hx).before⟩

/-! ## Paths -/

/-- A path is code and a pattern as well, and a pattern is a declaration. -/
def Region.Within (r r' : Region) : Prop :=
  r = .path ∧ r' ≠ .type ∨ r = .pattern ∧ r' = .declaration

theorem Region.Within.reads (h : r.Within r') (hk : r.reads k = true) :
    r'.reads k = true := by
  rcases h with ⟨rfl, h⟩ | ⟨rfl, rfl⟩
  · simp only [Region.reads, Bool.or_eq_true, decide_eq_true_eq] at hk
    cases r' with
    | type => exact absurd rfl h
    | path => simpa [Region.reads] using hk
    | _ =>
      rcases hk with hk | rfl
      · unfold startsSegment at hk
        split at hk <;> first | rfl | cases hk
      · rfl
  · exact hk

theorem Stretch.lift {runs runs' : List (List Token)} {x y z : List Token}
    (h : Stretch r runs x y) (hr : r.Within r') (hs : Stretch r' runs' y z) :
    Stretch r' (runs ++ runs') x z := by
  induction h with
  | done => exact hs
  | plain hk _ ih => exact .plain (hr.reads hk) (ih hr hs)
  | nested ho hi hc _ _ ih =>
    rcases hr with ⟨rfl, _⟩ | ⟨rfl, rfl⟩
    · cases ho
    · rw [List.append_assoc]
      exact .nested ho hi hc (ih (.inr ⟨rfl, rfl⟩) hs)
  | group hk hg _ ih =>
    rcases hr with ⟨rfl, _⟩ | ⟨rfl, rfl⟩
    · cases hk
    · exact .group hk hg (ih (.inr ⟨rfl, rfl⟩) hs)
  | turbofish _ hk hg _ ih =>
    refine .turbofish ?_ hk hg (ih hr hs)
    rcases hr with ⟨_, hr⟩ | ⟨_, rfl⟩
    · exact hr
    · decide
  | attributed hcode =>
    rcases hr with ⟨rfl, _⟩ | ⟨rfl, _⟩ <;> rcases hcode with hcode | hcode <;> cases hcode
  | _ => rcases hr with ⟨hr, _⟩ | ⟨hr, _⟩ <;> cases hr

theorem Before.lift (hr : r.Within r') (h : Before r (Before r' R) x) :
    Before r' R x := by
  obtain ⟨runs, y, hs, runs', z, hs', hR⟩ := h
  exact ⟨runs ++ runs', z, hs.lift hr hs', hR⟩

theorem Past.lift (hr : r.Within r') (h : Past r (Before r' R) x) : Past r' R x := by
  obtain ⟨runs, y, hs, hlength, runs', z, hs', hR⟩ := h
  exact ⟨runs ++ runs', z, hs.lift hr hs', Nat.lt_of_le_of_lt hs'.length_le hlength, hR⟩

theorem Spans.lift (h : Spans r p) (hr : r.Within r') : Spans r' p := by
  intro R s a u hrun
  obtain ⟨hm, hb⟩ := h (Before r' R) s a u hrun
  exact ⟨hm, fun hq hR => (hb hq (.here hR)).lift hr⟩

/-- What stands behind `::`: more of the path, or generic arguments first. -/
def AfterSep (r : Region) (R : List Token → Prop) (x : List Token) : Prop :=
  Before r R x ∨ ∃ run y, x = run ++ y ∧ Generics run y ∧ Before r R y

theorem past_sep (hk : r.reads .pathSep = true) (t : Token) (x : List Token)
    (ht : t.kind = .pathSep) (h : AfterSep r R x) : Past r R (t :: x) := by
  rcases h with h | ⟨run, y, rfl, hg, runs, z, hs, hR⟩
  · exact past_token hk t x ht h
  · by_cases hr : r = .type
    · subst hr
      exact past_token hk t _ ht (before_generics hg ⟨runs, z, hs, hR⟩)
    · have hlength := hs.length_le
      refine ⟨run :: runs, z, .turbofish hr ht hg hs, ?_, hR⟩
      rw [List.length_cons, List.length_append]
      omega

end RustLua.Parser
