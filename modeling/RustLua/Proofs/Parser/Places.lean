import RustLua.Proofs.Parser.Quiet

/-! # Where reports stand

A report stands at the current token. Behind the last token there is none, and a report
that is made there stands nowhere, at 0:0. Loops and skips stop in front of the end token;
where an expression or a pattern is missing it is taken, and only there, after a report on
it. So the end token lies ahead unless such a report was made (`InPlace`). -/
namespace RustLua.Parser

variable {tokens : List Token} {s u : State} {t : Token} {rest : List Token}

/-! ## Reports -/

/-- The two reports after which the end token is taken. -/
def EndReport (t : Token) (d : Diagnostic) : Prop :=
  d = .atPos .error t.pos (SyntaxError.unexpected t).message ∨
    d = .atPos .error t.pos (SyntaxError.expected "pattern" t).message

/-- One of these reports was made. -/
def EndTaken (tokens : List Token) (reports : List Diagnostic) : Prop :=
  ∃ t ∈ tokens, t.kind = .eof ∧ ∃ d ∈ reports, EndReport t d

/-- Every report stands at a token, or nowhere because the end token was taken before. -/
def Traced (tokens : List Token) (reports : List Diagnostic) : Prop :=
  ∀ before (d : Diagnostic) after, reports = before ++ d :: after →
    (∃ t ∈ tokens, d.line = t.pos.line ∧ d.column = t.pos.column) ∨
      (d.line = 0 ∧ d.column = 0 ∧ EndTaken tokens before)

theorem EndTaken.append {reports : List Diagnostic} (h : EndTaken tokens reports)
    (more : List Diagnostic) : EndTaken tokens (reports ++ more) := by
  obtain ⟨t, ht, hk, d, hd, hend⟩ := h
  exact ⟨t, ht, hk, d, List.mem_append_left more hd, hend⟩

theorem Traced.concat {reports : List Diagnostic} {d : Diagnostic} (h : Traced tokens reports)
    (hd : (∃ t ∈ tokens, d.line = t.pos.line ∧ d.column = t.pos.column) ∨
      (d.line = 0 ∧ d.column = 0 ∧ EndTaken tokens reports)) :
    Traced tokens (reports ++ [d]) := by
  intro before e after hsplit
  rcases List.eq_nil_or_concat after with rfl | ⟨inner, last, rfl⟩
  · obtain ⟨rfl, hlast⟩ := List.append_inj' hsplit rfl
    cases hlast
    exact hd
  · rw [List.concat_eq_append, ← List.cons_append, ← List.append_assoc] at hsplit
    exact h before e inner (List.append_inj' hsplit rfl).1

/-! ## States -/

/-- The end token lies ahead, or a report says why it does not. -/
structure InPlace (tokens : List Token) (s : State) : Prop where
  traced : Traced tokens s.bag.items
  ending : (∃ t ∈ s.ahead, t.kind = .eof) ∨ EndTaken tokens s.bag.items

/-- A token that can be current. -/
def Seen (tokens : List Token) (t : Token) : Prop := t.kind ≠ .eof → t ∈ tokens

/-- The position of a token, the end token apart. -/
def Stands (tokens : List Token) (pos : Pos) : Prop :=
  ∃ t ∈ tokens, t.kind ≠ .eof ∧ t.pos = pos

theorem Seen.stands (h : Seen tokens t) (hk : t.kind ≠ .eof) : Stands tokens t.pos :=
  ⟨t, h hk, hk, rfl⟩

theorem State.seen (h : s.ahead <:+ tokens) : Seen tokens s.current := by
  intro hk
  obtain ⟨rest, hl⟩ := State.exists_cons hk
  exact h.subset (hl ▸ List.mem_cons_self)

/-- What is skipped in front of the end token leaves it ahead. -/
theorem InPlace.drop (h : InPlace tokens s) {n : Nat}
    (hn : ∀ t ∈ s.ahead.take n, t.kind ≠ .eof) (hu : u.ahead = s.ahead.drop n)
    (hb : u.bag = s.bag) : InPlace tokens u := by
  refine ⟨hb ▸ h.traced, ?_⟩
  rw [hu, hb]
  refine h.ending.imp_left ?_
  rintro ⟨t, ht, hk⟩
  rw [← List.take_append_drop n s.ahead] at ht
  rcases List.mem_append.mp ht with ht | ht
  · exact absurd hk (hn t ht)
  · exact ⟨t, ht, hk⟩

theorem InPlace.reportAt (h : InPlace tokens s) (ht : t ∈ tokens) (e : SyntaxError) :
    InPlace tokens (s.report t.pos e) :=
  ⟨h.traced.concat (.inl ⟨t, ht, rfl, rfl⟩), h.ending.imp_right (.append · _)⟩

theorem InPlace.report (h : InPlace tokens s) (hs : s.ahead <:+ tokens) (e : SyntaxError) :
    InPlace tokens (s.report s.current.pos e) := by
  cases hl : s.ahead with
  | cons t rest =>
    have ht : s.current = t := by rw [State.current, hl]; rfl
    rw [ht]
    exact h.reportAt (hs.subset (by simp [hl])) e
  | nil =>
    have hend : EndTaken tokens s.bag.items := by
      rcases h.ending with ⟨t, ht, _⟩ | hend
      · rw [hl] at ht
        cases ht
      · exact hend
    have hpos : s.current.pos = ⟨0, 0⟩ := by rw [State.current, hl]; rfl
    rw [hpos]
    exact ⟨h.traced.concat (.inr ⟨rfl, rfl, hend⟩), .inr (hend.append _)⟩

/-- Behind one of the reports that allow it, the current token may be the end token. -/
theorem InPlace.endTaken (h : InPlace tokens s) (hs : s.ahead <:+ tokens) {e : SyntaxError}
    (he : EndReport s.current (.atPos .error s.current.pos e.message))
    (hk : s.current.kind = .eof) :
    EndTaken tokens (s.report s.current.pos e).bag.items := by
  cases hl : s.ahead with
  | nil =>
    rcases (h.report hs e).ending with ⟨t, ht, _⟩ | hend
    · rw [State.report, hl] at ht
      cases ht
    · exact hend
  | cons t rest =>
    have hmem : s.current ∈ s.ahead := by rw [State.current, hl]; exact List.mem_cons_self
    exact ⟨_, hs.subset hmem, hk, _, List.mem_append_right _ (List.mem_singleton_self _), he⟩

/-! ## Skipping -/

theorem take_cons_ne_eof {n : Nat} (hk : t.kind ≠ .eof)
    (h : ∀ x ∈ rest.take n, x.kind ≠ .eof) : ∀ x ∈ (t :: rest).take (n + 1), x.kind ≠ .eof := by
  rw [List.take_succ_cons, List.forall_mem_cons]
  exact ⟨hk, h⟩

theorem balancedWidth_ne_eof (depth : Nat) (l : List Token) :
    ∀ t ∈ l.take (balancedWidth depth l), t.kind ≠ .eof := by
  fun_induction balancedWidth depth l with
  | case1 | case2 => simp
  | case3 depth t rest hk => simpa using hk
  | case4 depth t rest hk inner _ ih =>
    rw [Nat.add_comm]
    exact take_cons_ne_eof hk ih

theorem anglesWidth_ne_eof (depth : Nat) (l : List Token) :
    ∀ t ∈ l.take (anglesWidth depth l).1, t.kind ≠ .eof := by
  fun_induction anglesWidth depth l with
  | case1 | case2 | case3 | case4 => simp
  | case5 depth t rest hk _ _ _ _ => simpa using hk
  | case6 depth t rest n cut hk _ _ _ _ heq ih =>
    rw [heq] at ih
    exact take_cons_ne_eof hk ih

/-- Recovery stops in front of the end token, or behind a semicolon. -/
theorem recoveryWidth_ne_eof (l : List Token) :
    ∀ t ∈ l.take (recoveryWidth l), t.kind ≠ .eof := by
  fun_induction recoveryWidth l
  case case2 t _ hk => simp [hk]
  case case15 t rest _ _ _ _ _ _ _ _ _ _ _ _ hk ih =>
    rw [Nat.add_comm]
    exact take_cons_ne_eof hk ih
  all_goals simp

theorem balancedWidth_pos {depth : Nat} (ht : t.kind ≠ .eof) :
    0 < balancedWidth depth (t :: rest) := by
  unfold balancedWidth
  rw [if_neg ht]
  extract_lets inner
  by_cases hi : inner = 0
  · rw [if_pos hi]; exact Nat.one_pos
  · rw [if_neg hi]; omega

theorem anglesWidth_pos (ht : t.kind = .less) :
    0 < (anglesWidth 0 (t :: rest)).1 := by
  simp [anglesWidth, ht]

end RustLua.Parser
