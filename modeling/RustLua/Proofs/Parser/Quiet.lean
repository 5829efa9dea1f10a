import RustLua.Parser.Grammar

/-! # Runs of a parser

Parsing never fails, so that a tree comes out of any token list; where something was wrong
the tree holds placeholders, and a report says so. Every step moves in one direction only
(`Moved`): tokens are taken from the front, reports are added at the end. A run that ends
with the reports it started with therefore consists of quiet steps. -/
namespace RustLua.Parser

variable {α β σ : Type} {s t : State} {k : Token.Kind}

/-! ## Moving forward -/

/-- What any run keeps. -/
structure Moved (s t : State) : Prop where
  ahead : t.ahead <:+ s.ahead
  reports : ∃ more, t.bag.items = s.bag.items ++ more ∧ ∀ d ∈ more, d.severity = .error
  noStruct : t.noStruct = s.noStruct

theorem Moved.refl (s : State) : Moved s s := ⟨List.suffix_refl _, ⟨[], by simp⟩, rfl⟩

theorem Moved.trans {s t u : State} (h : Moved s t) (h' : Moved t u) : Moved s u := by
  obtain ⟨m, hm, hme⟩ := h.reports
  obtain ⟨n, hn, hne⟩ := h'.reports
  refine ⟨h'.ahead.trans h.ahead, ⟨m ++ n, by rw [hn, hm, List.append_assoc], ?_⟩,
    h'.noStruct.trans h.noStruct⟩
  intro d hd
  rcases List.mem_append.mp hd with hd | hd
  · exact hme d hd
  · exact hne d hd

/-- As many reports are the same reports. -/
theorem Moved.bag_eq {s t : State} (h : Moved s t) (hc : t.bag.count = s.bag.count) :
    t.bag = s.bag := by
  obtain ⟨m, hm, _⟩ := h.reports
  simp only [Bag.count, hm, List.length_append] at hc
  have hnil : m = [] := List.length_eq_zero_iff.mp (by omega)
  cases hs : s.bag
  cases ht : t.bag
  simp_all

/-- What was added since is dropped on the way back, and nothing else. -/
theorem Moved.rewind_bind {s t : State} (h : Moved s t) (f : Unit → Parser α) :
    (rewind s >>= f) t = f () s := by
  obtain ⟨m, hm, _⟩ := h.reports
  have hbag : t.bag.truncate s.bag.count = s.bag := by
    simp [Bag.truncate, Bag.count, hm]
  change f () { t with
    ahead := s.ahead
    previous := s.previous
    bag := t.bag.truncate s.bag.count } = _
  rw [hbag, h.noStruct]

theorem Moved.count_le {s t : State} (h : Moved s t) : s.bag.count ≤ t.bag.count := by
  obtain ⟨m, hm, _⟩ := h.reports
  simp only [Bag.count, hm, List.length_append]
  omega

/-- The parts of a quiet run are quiet. -/
theorem Moved.quiet {s t u : State} (h : Moved s t) (h' : Moved t u) (hq : u.bag = s.bag) :
    t.bag = s.bag ∧ u.bag = t.bag := by
  have hle := h.count_le
  have hle' := h'.count_le
  rw [hq] at hle'
  have ht : t.bag = s.bag := h.bag_eq (by omega)
  exact ⟨ht, hq.trans ht.symm⟩

/-- Only errors are reported, so a run that ends without errors is quiet. -/
theorem Moved.bag_eq_of_no_errors {s t : State} (h : Moved s t) (hb : t.bag.hasErrors = false) :
    t.bag = s.bag := by
  obtain ⟨more, hm, he⟩ := h.reports
  refine h.bag_eq ?_
  cases more with
  | nil => simp [Bag.count, hm]
  | cons d more => simp [Bag.hasErrors, hm, he d (by simp)] at hb

/-! ## Basic steps -/

/-- Where the end is not seen there is a token. -/
theorem State.exists_cons (h : s.current.kind ≠ .eof) : ∃ rest, s.ahead = s.current :: rest := by
  unfold State.current at *
  cases hl : s.ahead with
  | nil => rw [hl] at h; exact absurd rfl h
  | cons x rest => exact ⟨rest, rfl⟩

theorem advance_nil {s : State} (h : s.ahead = []) : advance s = some (beyond, s) := by
  simp [advance, h, get, getThe, MonadStateOf.get, StateT.get, bind, StateT.bind]
  rfl

theorem advance_cons {s : State} {t : Token} {rest : List Token} (h : s.ahead = t :: rest) :
    advance s = some (t, { s with ahead := rest, previous := t.kind }) := by
  simp [advance, h, get, getThe, MonadStateOf.get, StateT.get, bind, StateT.bind]
  rfl

/-- The token that is taken is the current one. -/
theorem advance_eq_some {s t : State} {a : Token} (h : advance s = some (a, t)) :
    a = s.current ∧ Moved s t ∧ t.bag = s.bag := by
  cases hl : s.ahead with
  | nil =>
    rw [advance_nil hl] at h
    cases h
    exact ⟨by simp [State.current, hl], .refl _, rfl⟩
  | cons b rest =>
    rw [advance_cons hl] at h
    cases h
    exact ⟨by simp [State.current, hl], ⟨by simp [hl], ⟨[], by simp⟩, rfl⟩, rfl⟩

/-- Another token is not accepted, and stays. -/
theorem accept_refused {s : State} {k : Token.Kind} (hk : s.current.kind ≠ k) :
    accept k s = some (false, s) := by
  change (if decide (s.current.kind = k) = true then _ else pure false : Parser Bool) s = _
  rw [if_neg (by simpa using hk)]
  rfl

theorem expect_cons {s : State} {t : Token} {rest : List Token} (h : s.ahead = t :: rest)
    (ht : t.kind = k) : expect k s = some (t, { s with ahead := rest, previous := t.kind }) := by
  have hc : s.current.kind = k := by rw [State.current, h]; exact ht
  change (if s.current.kind = k then advance else _ : Parser Token) s = _
  rw [if_pos hc, advance_cons h]

theorem withNoStruct_eq {p : Parser α} {flag : Bool} {s t : State} {a : α}
    (h : p { s with noStruct := flag } = some (a, t)) :
    withNoStruct flag p s = some (a, { t with noStruct := s.noStruct }) := by
  change (p { s with noStruct := flag }).bind _ = _
  rw [h]
  rfl

theorem skip_eq_some (n : Nat) (s : State) :
    ∃ t, skip n s = some ((), t) ∧ t.ahead = s.ahead.drop n ∧ t.bag = s.bag ∧
      t.noStruct = s.noStruct := by
  induction n generalizing s with
  | zero => exact ⟨s, rfl, by simp, rfl, rfl⟩
  | succ n ih =>
    cases hl : s.ahead with
    | nil =>
      obtain ⟨t, hr, ha, hb, hn⟩ := ih s
      refine ⟨t, ?_, by simp [ha, hl], hb, hn⟩
      change (advance s).bind _ = _
      rw [advance_nil hl]
      exact hr
    | cons a rest =>
      obtain ⟨t, hr, ha, hb, hn⟩ := ih { s with ahead := rest, previous := a.kind }
      refine ⟨t, ?_, by simp [ha], hb, hn⟩
      change (advance s).bind _ = _
      rw [advance_cons hl]
      exact hr

theorem iterate_more {body : σ → Parser (Step σ β)} {x x' : σ} {s t : State}
    (h : body x s = some (.more x', t)) (ht : t.ahead.length < s.ahead.length) (i : Nat) :
    iterate body (i + 1) x s = iterate body i x' t := by
  change (body x s).bind _ = _
  rw [h]
  change (if t.ahead.length < s.ahead.length then iterate body i x' else failure) t = _
  rw [if_pos ht]

theorem iterate_done {body : σ → Parser (Step σ β)} {x : σ} {b : β} {s t : State}
    (h : body x s = some (.done b, t)) (i : Nat) : iterate body (i + 1) x s = some (b, t) := by
  change (body x s).bind _ = _
  rw [h]
  rfl

/-- What a round of a loop has to give: the invariant again, or the result. -/
def Step.Meets (I : σ → Prop) (Q : β → Prop) : Step σ β → Prop
  | .more s => I s
  | .done b => Q b

/-! ## Parsers that move forward -/

/-- Every run takes tokens from the front only, adds reports at the end only, and leaves
the rule on struct literals as it was. -/
def Moves (p : Parser α) : Prop := ∀ s a t, p s = some (a, t) → Moved s t

variable {p : Parser α} {f : α → Parser β}

theorem Moves.pure (a : α) : Moves (pure a) := by
  intro s b t hr
  cases hr
  exact .refl s

theorem Moves.bind (hp : Moves p) (hf : ∀ a, Moves (f a)) : Moves (p >>= f) := by
  intro s b u hr
  obtain ⟨⟨a, t⟩, hpr, hfr⟩ := Option.bind_eq_some_iff.mp hr
  exact (hp s a t hpr).trans (hf a t b u hfr)

theorem moves_get : Moves (get : Parser State) := by
  intro s a t hr
  cases hr
  exact .refl s

theorem moves_advance : Moves advance := fun _ _ _ hr => (advance_eq_some hr).2.1

theorem moves_skip (n : Nat) : Moves (skip n) := by
  induction n with
  | zero => exact .pure ()
  | succ n ih => exact moves_advance.bind fun _ => ih

theorem moves_recover : Moves recover := moves_get.bind fun _ => moves_skip _

theorem moves_skipBalanced : Moves skipBalanced := moves_get.bind fun _ => moves_skip _

/-- Every run reports something. -/
def Loud (p : Parser α) : Prop := ∀ s a t, p s = some (a, t) → Moved s t ∧ t.bag ≠ s.bag

theorem State.report_bag_ne (s : State) (pos : Pos) (error : SyntaxError) :
    (s.report pos error).bag ≠ s.bag := by
  intro h
  have hlength := congrArg (fun b => b.items.length) h
  simp [State.report, Bag.add] at hlength

theorem State.moved_report (s : State) (pos : Pos) (e : SyntaxError) : Moved s (s.report pos e) :=
  ⟨List.suffix_refl _, ⟨[_], rfl, by simp [Diagnostic.atPos]⟩, rfl⟩

theorem loud_reportAt (pos : Pos) (e : SyntaxError) : Loud (reportAt pos e) := by
  intro s a t hr
  cases hr
  exact ⟨s.moved_report pos e, s.report_bag_ne pos e⟩

theorem loud_report (e : SyntaxError) : Loud (report e) :=
  fun s a t hr => loud_reportAt s.current.pos e s a t hr

theorem Loud.next (hp : Loud p) (hf : ∀ a, Moves (f a)) : Loud (p >>= f) := by
  intro s b u hr
  obtain ⟨⟨a, t⟩, hpr, hfr⟩ := Option.bind_eq_some_iff.mp hr
  obtain ⟨hst, hloud⟩ := hp s a t hpr
  have htu := hf a t b u hfr
  exact ⟨hst.trans htu, fun hb => hloud (hst.quiet htu hb).1⟩

theorem moves_expect (k : Token.Kind) : Moves (expect k) := by
  intro s a t hr
  change (if s.current.kind = k then advance else _ : Parser Token) s = _ at hr
  split at hr
  · exact moves_advance s a t hr
  · exact ((loud_report _).next fun _ => .pure _ : Loud _) s a t hr |>.1

end RustLua.Parser
