import RustLua.Proofs.Outcome
import RustLua.Proofs.Parser.DelimiterExprs

/-! # Which tokens the productions read: items, statements and files

The last productions, and the knot. In a file that parses without errors, every delimiter
that is not closed by one of its kind lies in a run that was skipped. -/
namespace RustLua.Parser

open RustLua.Tree

variable {α : Type} {g : Grammar} {P R : List Token → Prop} {t : Token} {x : List Token}

theorem Past.of_stretch {r : Region} {runs : List (List Token)} {y : List Token}
    (h : Stretch r runs (t :: x) y) (hlength : y.length ≤ x.length) (hR : R y) :
    Past r R (t :: x) :=
  ⟨runs, y, h, Nat.lt_succ_of_le hlength, hR⟩

/-! ## Skipping -/

theorem leads_skipToSemicolon {overBraces : Bool} {groups : List Token.Kind}
    (hgroups : groups = if overBraces then [.braceOpen] else []) :
    Leads (PassedTo [.semicolon] groups R) (skipToSemicolon overBraces) (fun _ => R) := by
  refine leads_loop fun _ => .onKind fun t => ?_
  split
  case h_1 hk | h_2 hk => exact .pureHere fun x hx h => passedTo_here (by rw [hx, hk]; simp) h
  case h_3 hsemicolon heof =>
    extract_lets rest
    have hrest (u : Unit) : Leads (PassedTo [.semicolon] groups R) (rest u) (fun r l =>
        r.Meets (fun _ => PassedTo [.semicolon] groups R l) (fun _ => R l)) := .pure fun _ h => h
    refine .ite (fun hc => ?_) fun hc => ?_
    · simp only [Bool.and_eq_true, decide_eq_true_eq] at hc
      refine (leadsAt_skipBalanced (by rw [hc.2]; rfl) fun run x hg h => ?_).bind hrest
      exact passedTo_group (by simp [hgroups, hc]) hg h
    · refine .take heof (fun x h => passedTo_token ?_ h) (hrest ())
      cases overBraces <;> simp_all

theorem leads_skipWhere : Leads (Before .code R) skipWhere (fun _ => Before .code R) := by
  have hwhere (t : Token) (x : List Token) (ht : t.kind = .kwWhere)
      (h : PassedTo [.braceOpen, .semicolon] [.less] (Before .code R) x) :
      Before .code R (t :: x) := by
    obtain ⟨run, y, rfl, hp, runs, z, hs, hR⟩ := h
    exact ⟨_, z, .whereClause ht hp hs, hR⟩
  refine .ifAccept (by decide) hwhere ?_ (.pure fun _ h => h)
  refine leads_loop fun _ => .onKind fun t => ?_
  split
  case h_1 hk | h_2 hk | h_3 hk =>
    exact .pureHere fun x hx h => passedTo_here (by rw [hx, hk]; simp) h
  case h_4 hk =>
    refine (leadsAt_skipAngles hk fun run x hg h => ?_).bind fun _ => .pure fun _ h => h
    exact passedTo_generics (by simp) hg h
  case h_5 hbrace hsemicolon heof hless =>
    refine .take heof (fun x h => passedTo_token ?_ h) (.pure fun _ h => h)
    simpa using ⟨heof, hbrace, hsemicolon, hless⟩

/-! ## Functions -/

/-- Tokens that are skipped because of what they are. -/
theorem skip_leads {r : Region} {Q : α → List Token → Prop} {f : Unit → Parser α} {n : Nat}
    {s u : State} {a : α} (hreads : ∀ t ∈ s.ahead.take n, r.reads t.kind = true)
    (hf : Leads (Before r R) (f ()) Q) (hr : (skip n >>= f) s = some (a, u)) :
    Moved s u ∧ (u.bag = s.bag → Q a u.ahead → Before r R s.ahead) := by
  have htaken (n : Nat) (x : List Token) (hreads : ∀ t ∈ x.take n, r.reads t.kind = true)
      (h : Before r R (x.drop n)) : Before r R x := by
    induction n generalizing x with
    | zero => exact h
    | succ n ih =>
      cases x with
      | nil => exact h
      | cons t rest =>
        rw [List.take_succ_cons, List.forall_mem_cons] at hreads
        exact before_token hreads.1 t rest rfl (ih rest hreads.2 h)
  obtain ⟨⟨_, v⟩, hv, hr⟩ := Option.bind_eq_some_iff.mp hr
  obtain ⟨w, hw, hahead, hbag, _⟩ := skip_eq_some n s
  cases hw.symm.trans hv
  have hmoved : Moved s v := moves_skip n s () v hv
  obtain ⟨hm, hb⟩ := hf v a u hr
  refine ⟨hmoved.trans hm, fun hq hQ => htaken n _ hreads ?_⟩
  rw [← hahead]
  exact hb (hq.trans hbag.symm) hQ

/-- The tokens of a receiver. -/
theorem reads_receiver (s : State) :
    ∀ t ∈ s.ahead.take (receiverWidth s), Region.declaration.reads t.kind = true := by
  intro t ht
  obtain ⟨i, hi, rfl⟩ := List.mem_take_iff_getElem.mp ht
  have hpeek : s.ahead[i] = s.peek i := by
    simp [State.peek, List.getD, List.getElem?_eq_getElem (show i < s.ahead.length by omega)]
  have hwidth : i < receiverWidth s := by omega
  rw [hpeek]
  unfold receiverWidth at hwidth
  extract_lets ref life name at hwidth
  have hseen {n : Nat} {k : Token.Kind} (hk : (s.peek n).kind = k)
      (hr : Region.declaration.reads k = true) (hi : i = n) :
      Region.declaration.reads (s.peek i).kind = true := by rw [hi, hk]; exact hr
  have href (h : i < ref) : Region.declaration.reads (s.peek i).kind = true := by
    by_cases hk : (s.peek 0).kind = .amp
    · simp only [ref, if_pos hk] at h
      exact hseen hk rfl (by omega)
    · simp [ref, hk] at h
  have hlife (h : i < life) : Region.declaration.reads (s.peek i).kind = true := by
    by_cases hk : ref = 1 ∧ (s.peek 1).kind = .lifetime
    · simp only [life, if_pos hk] at h
      by_cases hi : i = 1
      · exact hseen hk.2 rfl hi
      · exact href (by omega)
    · simp only [life, if_neg hk] at h
      exact href h
  have hname (h : i < name) : Region.declaration.reads (s.peek i).kind = true := by
    by_cases hk : (s.peek life).kind = .kwMut
    · simp only [name, if_pos hk] at h
      by_cases hi : i = life
      · exact hseen hk rfl hi
      · exact hlife (by omega)
    · simp only [name, if_neg hk] at h
      exact hlife h
  split at hwidth
  · rename_i hk
    by_cases hi : i = name
    · exact hseen hk rfl hi
    · exact hname (by omega)
  · cases hwidth

theorem spans_fnParam (hg : ReadsRegions g) : Spans .declaration (fnParam g) := by
  intro R
  refine (leads_skipAttributes fun t x ht h =>
    (past_attribute (.inr rfl) t x ht h).before).bind fun _ => ?_
  refine .onCurrent fun t => Leads.at ?_ t
  intro s a u hr
  change (if 0 < receiverWidth s then _ else _ : Parser Param) s = some (a, u) at hr
  split at hr
  · refine skip_leads (Q := fun _ => Before .declaration R) (reads_receiver s) ?_ hr
    exact leads_annotated hg fun _ => .pure fun _ h => h
  · have hplain : Leads (Before .declaration R) (do
        let p ← pattern g
        let _ ← expect .colon
        return (⟨p, some (← typeText g), false, t.pos⟩ : Param)) (fun _ => Before .declaration R) := by
      refine ((spans_pattern hg).lift (.inr ⟨rfl, rfl⟩) R).bind fun p => ?_
      refine .expect (by decide) before_ascribed fun _ => ?_
      exact (spans_typeText hg _).bind fun _ => .pure fun _ h => .here h
    exact hplain s a u hr

/-- What stands behind the name of a function. -/
def AfterName (R : List Token → Prop) (x : List Token) : Prop :=
  ∃ args o y, x = args ++ o :: y ∧ (args = [] ∨ Generics args (o :: y)) ∧ o.kind = .parenOpen ∧
    Before .declaration (Closing .parenClose (Before .code R)) y

theorem past_header (t : Token) (x : List Token) (ht : t.kind = .kwFn)
    (h : Closing .ident (AfterName R) x) : Past .code R (t :: x) := by
  obtain ⟨name, _, rfl, hn, args, o, y, rfl, hargs, ho, runs, _, hs, c, z, rfl, hc, runs', w, hs', hR⟩ := h
  have hlength := hs.length_le
  have hlength' := hs'.length_le
  refine .of_stretch (.header ht hn hargs ho hs hc hs') ?_ hR
  simp only [List.length_cons, List.length_append] at hlength ⊢
  omega

theorem spansPast_fnParts (hg : ReadsRegions g) : SpansPast .code (fnParts g) := by
  intro R
  refine .expect (by decide) past_header fun t => ?_
  refine .expect (by decide) (fun name x hn h => ⟨name, x, rfl, hn, h⟩) fun name => ?_
  extract_lets rest
  have hrest (u : Unit) : Leads (Closing .parenOpen
      (Before .declaration (Closing .parenClose (Before .code R)))) (rest u)
      (fun _ => Before .code R) := by
    refine .expect (by decide) (fun o x ho h => ⟨o, x, rfl, ho, h⟩) fun _ => ?_
    refine (spans_commaList rfl (spans_fnParam hg) _).bind fun params => ?_
    refine .expect (by decide) closing_here fun _ => ?_
    extract_lets afterReturns
    have hreturns (returns : Option TypeText) :
        Leads (Before .code R) (afterReturns returns) (fun _ => Before .code R) := by
      refine leads_skipWhere.bind fun _ => ?_
      refine .ifAccept (by decide) (before_token rfl) (.pure fun _ h => h) ?_
      exact (hg.block.spans.map some R).bind fun _ => .pure fun _ h => h
    refine .ifAccept (by decide) (fun t x ht h => (past_typed (.inr (.inl ht)) h).before) ?_
      (hreturns none)
    exact ((spans_typeText hg).map some _).bind fun returns => (hreturns returns).pre fun _ => .here
  refine .onCheck (fun t ht => ?_) ((hrest ()).pre fun x h => ?_)
  · refine (leadsAt_skipAngles ht fun run x hgenerics h => ?_).bind hrest
    obtain ⟨o, y, rfl, ho, hy⟩ := h
    exact ⟨run, o, y, rfl, .inr hgenerics, ho, hy⟩
  · obtain ⟨o, y, rfl, ho, hy⟩ := h
    exact ⟨[], o, y, rfl, .inl rfl, ho, hy⟩

/-! ## Other items -/

theorem leads_visibility : Leads (Past .code R) visibility (fun _ => Past .code R) := by
  have hpub (t : Token) (x : List Token) (ht : t.kind = .kwPub)
      (h : Past .code R x ∨ Skipped .parenOpen (Past .code R) x) : Past .code R (t :: x) := by
    rcases h with h | ⟨run, y, rfl, hg, hy⟩
    · exact past_token rfl t x ht h.before
    · obtain ⟨runs, z, hs, hlength, hR⟩ := hy
      refine .of_stretch (.visibility ht hg hs) ?_ hR
      rw [List.length_append]
      omega
  refine .ifAccept (by decide) hpub ?_ (.pure fun _ h => h)
  refine .onCheck (fun t ht => ?_) (.pure fun _ h => .inl h)
  exact ((leadsAt_skipped ht rfl).pre fun _ => .inr).bind fun _ => .pure fun _ h => h

/-- What may stand behind the head of a type definition: a body, or nothing. -/
def Bodied (R : List Token → Prop) (x : List Token) : Prop :=
  ∃ body y, x = body ++ y ∧ (body = [] ∨ Group .braceOpen body y) ∧ Before .code R y

theorem past_definition
    (ht : t.kind ∈ [.kwStruct, .kwEnum, .kwTrait, .kwType] ∨ t.kind = .ident ∧ t.literal = "union")
    (h : Closing .ident (PassedTo [.semicolon, .braceOpen] [.parenOpen, .bracketOpen, .less]
      (Bodied R)) x) : Past .code R (t :: x) := by
  obtain ⟨name, _, rfl, hn, run, _, rfl, hp, body, y, rfl, hb, runs, z, hs, hR⟩ := h
  have hlength := hs.length_le
  refine .of_stretch (.definition ht hn hp hb hs) ?_ hR
  simp only [List.length_cons, List.length_append]
  omega

theorem leadsAt_typeDef (keyword : Bytes)
    (ht : t.kind ∈ [.kwStruct, .kwEnum, .kwTrait, .kwType] ∨ t.kind = .ident ∧ t.literal = "union") :
    LeadsAt t (Past .code R) (typeDef keyword) (fun _ => Before .code R) := by
  have hne : t.kind ≠ .eof := by
    rcases ht with ht | ht
    · intro he
      simp [he] at ht
    · rw [ht.1]; decide
  refine .take hne (fun x h => past_definition ht h) ?_
  refine .expect (by decide) (fun name x hn h => ⟨name, x, rfl, hn, h⟩) fun name => ?_
  refine (leads_loop fun _ => .onKind fun t => ?_).bind fun _ => .pure fun _ h => h
  split
  case h_1 => exact leads_report_pure.at t
  case h_2 hk =>
    refine .take (by rw [hk]; decide) (fun x h => ?_) (.pure fun _ h => h)
    exact passedTo_here (by simp [hk]) ⟨[], t :: x, rfl, .inl rfl, before_token rfl t x hk h⟩
  case h_3 hk =>
    refine (leadsAt_skipBalanced (by rw [hk]; rfl) fun run x hg h => ?_).bind fun _ =>
      .pure fun _ h => h
    rw [hk] at hg
    exact passedTo_here (by rw [hg.head]; simp) ⟨run, x, rfl, .inr hg, h⟩
  case h_4 hk | h_5 hk =>
    refine (leadsAt_skipBalanced (by rw [hk]; rfl) fun run x hg h => ?_).bind fun _ =>
      .pure fun _ h => h
    exact passedTo_group (by simp [hk]) hg h
  case h_6 hk =>
    refine (leadsAt_skipAngles hk fun run x hg h => ?_).bind fun _ => .pure fun _ h => h
    exact passedTo_generics (by simp) hg h
  case h_7 heof hsemicolon hbrace hparen hbracket hless =>
    refine .take heof (fun x h => passedTo_token ?_ h) (.pure fun _ h => h)
    simpa using ⟨heof, hsemicolon, hbrace, hparen, hbracket, hless⟩

theorem AfterPound.mono (h : AfterPound P x) (hPR : ∀ x, P x → R x) : AfterPound R x := by
  rcases h with ⟨run, y, rfl, hg, hy⟩ | ⟨b, z, rfl, hb, run, y, rfl, hg, hy⟩
  · exact .inl ⟨run, y, rfl, hg, hPR y hy⟩
  · exact .inr ⟨b, _, rfl, hb, run, y, rfl, hg, hPR y hy⟩

theorem spansPast_foreignItem (hg : ReadsRegions g) : SpansPast .code (foreignItem g) := by
  intro R
  refine (leads_skipAttributes fun t x ht h => past_attribute (.inl rfl) t x ht
    (h.mono fun _ => Past.before)).bind fun _ => ?_
  refine leads_visibility.bind fun _ => .maybePast (by decide) rfl fun _ => ?_
  extract_lets rest
  have hrest (u : Unit) : Leads (Past .code R) (rest u) (fun _ => Before .code R) := by
    refine .onCurrent fun t => ?_
    split
    · refine Leads.at ((spansPast_fnParts hg R).bind fun fn => .ite (fun _ => ?_) fun _ => ?_) t
      · exact .loud ((loud_reportAt _ _).next fun _ => .pure _)
      · exact .pure fun _ h => h
    · rename_i hk
      refine .take (by rw [hk]; decide) (fun x h => past_declared (.inr (.inr hk)) h) ?_
      refine .maybe (by decide) (before_token rfl) fun _ => ?_
      refine .expect (by decide) (before_token rfl) fun _ => ?_
      refine .expect (by decide) before_ascribed fun _ => (spans_typeText hg _).bind fun _ => ?_
      refine .expect (by decide) (fun t x ht h => ?_) fun _ => .pure fun _ h => h
      exact .here (.here (before_token rfl t x ht h))
    · rename_i hk
      exact (leadsAt_typeDef _ (by simp [hk])).bind fun _ => .pure fun _ h => h
    · exact Leads.at (.loud ((loud_report _).next fun _ => moves_recover.bind fun _ => .pure _)) t
  refine .onWord (fun t ht => ?_) (hrest ())
  exact .take (by rw [ht]; decide) (fun x h => past_token rfl t x ht h.before) (hrest ())

/-- What may stand behind `extern`. -/
def AfterExtern (R : List Token → Prop) (x : List Token) : Prop :=
  Before .code R x ∨ Closing .kwCrate (PassedTo [.semicolon] [] (Before .code R)) x

theorem past_extern (t : Token) (x : List Token) (ht : t.kind = .kwExtern) (h : AfterExtern R x) :
    Past .code R (t :: x) := by
  rcases h with h | ⟨u, _, rfl, hu, run, y, rfl, hp, runs, z, hs, hR⟩
  · exact past_token rfl t x ht h
  · have hlength := hs.length_le
    refine .of_stretch (.externCrate ht hu hp hs) ?_ hR
    simp only [List.length_cons, List.length_append]
    omega

theorem spansPast_externItem (hg : ReadsRegions g) : SpansPast .code (externItem g) := by
  intro R
  refine .expect (by decide) past_extern fun t => ?_
  refine .ifAccept (by decide) (fun u x hu h => .inr ⟨u, x, rfl, hu, h⟩) ?_ ?_
  · refine (leads_textOf (leads_skipToSemicolon rfl)).bind fun _ => ?_
    exact .expect (by decide) (before_token rfl) fun _ => .pure fun _ h => h
  · extract_lets rest
    have hrest (abi : Bytes) : Leads (Before .code R) (rest abi) (fun _ => Before .code R) := by
      refine .expect (by decide) (fun t x ht h => (past_open rfl t x ht h).before) fun _ => ?_
      refine (spans_partsUntil (fun t _ _ R => (spansPast_foreignItem hg R).at t) _).bind fun _ => ?_
      exact .expect (by decide) closing_here fun _ => .pure fun _ h => h
    refine .onCheck (fun t ht => ?_) ((hrest _).pre fun _ => .inl)
    rw [bind_map_left]
    exact .take (by rw [ht]; decide) (fun x h => .inl (before_token rfl t x ht h)) (hrest _)

theorem leadsAt_constItem (hg : ReadsRegions g) (ht : t.kind = .kwConst ∨ t.kind = .kwStatic) :
    LeadsAt t (Past .code R) (constItem g) (fun _ => Before .code R) := by
  have hne : t.kind ≠ .eof := by
    rcases ht with ht | ht <;> rw [ht] <;> decide
  refine .take hne (fun x h => past_declared (.inr ht) h) ?_
  refine .maybe (by decide) (before_token rfl) fun _ => ?_
  extract_lets afterName
  have hname (name : Bytes) : Leads (Before .declaration (Before .code R)) (afterName name)
      (fun _ => Before .code R) := by
    unfold afterName
    extract_lets afterType
    have htype (type : Option TypeText) : Leads (Before .declaration (Before .code R))
        (afterType type) (fun _ => Before .code R) := by
      unfold afterType
      extract_lets finish
      have hfinish (value : Option Expr) :
          Leads (Before .code R) (finish value) (fun _ => Before .code R) :=
        .expect (by decide) (before_token rfl) fun _ => .pure fun _ h => h
      refine .ifAccept (by decide) (fun t x ht h => .here (before_token rfl t x ht h)) ?_
        ((hfinish none).pre fun _ => .here)
      exact (hg.expression.spans.map some R).bind hfinish
    exact leads_annotated hg htype
  refine .ifAccept (by decide) (before_token rfl) (hname _) ?_
  rw [bind_map_left]
  exact .expect (by decide) (before_token rfl) fun _ => hname _

/-- A part that may stop in front of a closing brace takes a token elsewhere. -/
theorem Leads.past_of_stopped {p : Parser α} (h : Leads (Stopped R) p (fun _ => Before .code R))
    (hbrace : t.kind ≠ .braceClose) (heof : t.kind ≠ .eof) :
    LeadsAt t (Past .code R) p (fun _ => Before .code R) := by
  intro s a u hc hr
  obtain ⟨hm, hb⟩ := h s a u hr
  refine ⟨hm, fun hq hR => ?_⟩
  rcases hb hq hR with h | ⟨hhead, _⟩
  · exact h
  · rw [show s.ahead.headD beyond = t from hc] at hhead
    exact (hhead.elim heof hbrace).elim

theorem spans_items (hg : ReadsRegions g) : Spans .code (items g .braceClose) :=
  spans_partsUntil fun _ hbrace heof R => (hg.item R).past_of_stopped hbrace heof

theorem spansPast_moduleItem (hg : ReadsRegions g) : SpansPast .code (moduleItem g) := by
  intro R
  refine .expect (by decide) (past_token rfl) fun t => ?_
  refine .expect (by decide) (before_token rfl) fun name => ?_
  refine .ifAccept (by decide) (before_token rfl) (.pure fun _ h => h) ?_
  refine .expect (by decide) (fun t x ht h => (past_open rfl t x ht h).before) fun _ => ?_
  refine (spans_items hg _).bind fun _ => ?_
  exact .expect (by decide) closing_here fun _ => .pure fun _ h => h

theorem spansPast_useItem : SpansPast .code useItem := by
  intro R
  have huse (t : Token) (x : List Token) (ht : t.kind = .kwUse)
      (h : PassedTo [.semicolon] [.braceOpen] (Before .code R) x) : Past .code R (t :: x) := by
    obtain ⟨run, y, rfl, hp, runs, z, hs, hR⟩ := h
    have hlength := hs.length_le
    refine .of_stretch (.useTree ht hp hs) ?_ hR
    rw [List.length_append]
    omega
  refine .expect (by decide) huse fun t => ?_
  refine (leads_textOf (leads_skipToSemicolon rfl)).bind fun _ => ?_
  exact .expect (by decide) (before_token rfl) fun _ => .pure fun _ h => h

theorem spansPast_implItem (hg : ReadsRegions g) : SpansPast .code (implItem g) := by
  intro R
  refine .expect (by decide) (fun t x ht h => past_typed (.inr (.inr ht)) h) fun t => ?_
  extract_lets rest
  have hrest (u : Unit) : Leads (Before .type (Before .code R)) (rest u) (fun _ => Before .code R) := by
    refine .maybe (by decide) (before_token rfl) fun _ => (spans_typeText hg _).bind fun first => ?_
    extract_lets tail
    have htail (second : Option TypeText) :
        Leads (Before .type (Before .code R)) (tail second) (fun _ => Before .code R) := by
      refine (leads_skipWhere.pre fun _ => .here).bind fun _ => ?_
      refine .expect (by decide) (fun t x ht h => (past_open rfl t x ht h).before) fun _ => ?_
      refine (spans_items hg _).bind fun _ => .expect (by decide) closing_here fun _ => ?_
      split <;> exact .pure fun _ h => h
    refine .ifAccept (by decide) (before_token rfl) ?_ (htail none)
    exact ((spans_typeText hg).map some _).bind htail
  exact .onCheck (fun t ht => leadsAt_typeAngles ht (hrest ())) (hrest ())

/-- What stands behind the exclamation mark of a macro that is an item. -/
def AfterBang (R : List Token → Prop) (x : List Token) : Prop :=
  (∃ k, Skipped k (Before .code R) x) ∨ Closing .ident (fun y => ∃ k, Skipped k (Before .code R) y) x

theorem past_macroItem (ht : t.kind = .ident) (h : Closing .bang (AfterBang R) x) :
    Past .code R (t :: x) := by
  have hreads : Region.path.reads t.kind = true := by rw [ht]; rfl
  have hpast (bang : Token) (name : Option Token) {k : Token.Kind} {y : List Token}
      (hb : bang.kind = .bang) (hn : ∀ n ∈ name, n.kind = .ident)
      (hy : Skipped k (Before .code R) y) : Past .code R (t :: bang :: (name.toList ++ y)) := by
    obtain ⟨run, z, rfl, hg, runs, w, hs, hR⟩ := hy
    have hlength := hs.length_le
    refine .of_stretch (.skippedMacro hreads (.plain hreads .done) hb hn hg hs) ?_ hR
    simp only [List.length_cons, List.length_append]
    omega
  obtain ⟨bang, y, rfl, hb, ⟨k, hy⟩ | ⟨n, z, rfl, hn, k, hz⟩⟩ := h
  · exact hpast bang none hb (by simp) hy
  · exact hpast bang (some n) hb (by simpa using hn) hz

theorem leadsAt_macroItem (ht : t.kind = .ident) :
    LeadsAt t (Past .code R) macroItem (fun _ => Before .code R) := by
  refine .take (by rw [ht]; decide) (fun x h => past_macroItem ht h) ?_
  refine .expect (by decide) (fun bang x hb h => ⟨bang, x, rfl, hb, h⟩) fun _ => ?_
  extract_lets afterName
  have hname (name : Bytes) : Leads (fun y => ∃ k, Skipped k (Before .code R) y) (afterName name)
      (fun _ => Before .code R) := by
    refine .onKind fun t => ?_
    extract_lets done
    have hdone (u : Unit) : Leads (Before .code R) (done u) (fun _ => Before .code R) :=
      .pure fun _ h => h
    refine .ite (fun ho => ?_) fun _ => ?_
    · refine ((leadsAt_skipped rfl ho).pre fun _ h => ⟨_, h⟩).bind fun _ => ?_
      refine .ite (fun _ => ?_) fun _ => ?_
      · exact .maybe (by decide) (before_token rfl) fun _ => hdone ()
      · exact .expect (by decide) (before_token rfl) fun _ => hdone ()
    · refine Leads.at (.onCurrent fun t => Leads.at ?_ t) t
      exact leads_report_pure
  refine .onCheck (fun t ht => ?_) ((hname _).pre fun _ => .inl)
  rw [bind_map_left]
  exact .take (by rw [ht]; decide) (fun x h => .inr ⟨t, x, rfl, ht, h⟩) (hname _)

theorem leads_qualifiers : Leads (Past .code R) qualifiers (fun _ => Past .code R) := by
  refine leads_loop fun abi => .onGet fun s => ?_
  extract_lets next
  generalize s.current = t
  have htake {k : Token.Kind} (hk : t.kind = k) (hr : Region.code.reads k = true)
      (x : List Token) (h : Past .code R x) : Past .code R (t :: x) :=
    past_token hr t x hk h.before
  split
  case h_1 hk => exact .take (by rw [hk]; decide) (htake hk rfl) (.pure fun _ h => h)
  case h_2 hk | h_3 hk =>
    refine .ite (fun _ => ?_) fun _ => .pure fun _ h => h
    exact .take (by rw [hk]; decide) (htake hk rfl) (.pure fun _ h => h)
  case h_4 hk =>
    refine .ite (fun _ => .pure fun _ h => h) fun _ => ?_
    refine .take (by rw [hk]; decide) (htake hk rfl) ?_
    refine .onCheck (fun t ht => ?_) (.pure fun _ h => h)
    exact .take (by rw [ht]; decide) (fun x h => past_token rfl t x ht h.before)
      (.pure fun _ h => h)
  case h_5 => exact .pure fun _ h => h

theorem leads_noItem : Leads P (noItem t) (fun _ => R) :=
  .loud ((loud_report _).next fun _ => moves_recover.bind fun _ => .pure _)

theorem Stopped.before (h : Stopped R x) : Before .code R x := by
  rcases h with h | ⟨_, h⟩
  · exact h.before
  · exact h

theorem leads_stoppedAttributes : Leads (Stopped R) skipAttributes (fun _ => Stopped R) :=
  leads_skipAttributes fun t x ht h =>
    .inl (past_attribute (.inl rfl) t x ht (h.mono fun _ => Stopped.before))

theorem leads_item (hg : ReadsRegions g) (R : List Token → Prop) :
    Leads (Stopped R) (item g) (fun _ => Before .code R) := by
  refine leads_stoppedAttributes.bind fun _ => .onEither (fun t ht => ?_) ?_
  · exact .pureHere fun x hx h => .inr ⟨by rwa [hx], h⟩
  refine (leads_visibility.pre fun _ => .inl).bind fun isPublic => ?_
  refine leads_qualifiers.bind fun abi => .onCurrent fun t => ?_
  have hmap {p : Parser Item} (h : SpansPast .code p) :
      LeadsAt t (Past .code R) (some <$> p) (fun _ => Before .code R) := (h.map some R).at t
  split
  case h_1 =>
    refine Leads.at ?_ t
    exact (spansPast_fnParts hg R).bind fun _ => .pure fun _ h => h
  case h_2 => exact hmap (spansPast_externItem hg)
  case h_3 hk => exact (leadsAt_constItem hg (.inl hk)).map fun _ _ h => h
  case h_4 hk => exact (leadsAt_constItem hg (.inr hk)).map fun _ _ h => h
  case h_5 => exact hmap (spansPast_moduleItem hg)
  case h_6 => exact hmap spansPast_useItem
  case h_7 => exact hmap (spansPast_implItem hg)
  case h_8 hk | h_9 hk | h_10 hk | h_11 hk =>
    exact (leadsAt_typeDef _ (.inl (by simp [hk]))).map fun _ _ h => h
  case h_12 hk =>
    refine .ite (fun hw => ?_) fun _ => .onPeek fun _ => .ite (fun _ => ?_) fun _ => ?_
    · exact (leadsAt_typeDef _ (.inr ⟨hk, hw⟩)).map fun _ _ h => h
    · exact (leadsAt_macroItem hk).map fun _ _ h => h
    · exact leads_noItem.at t
  case h_13 => exact leads_noItem.at t

/-! ## Statements -/

theorem looks_startsItem : Looks startsItem := by
  refine .onGet fun s => ?_
  extract_lets next
  split <;> exact .pure _

theorem looks_startsBlockLike : Looks startsBlockLike := by
  refine .onKind fun k => ?_
  split
  case h_7 | h_8 => exact .onPeek fun _ => .pure _
  all_goals exact .pure _

theorem spans_finishStmt (e : Expr) : Spans .code (finishStmt e) := by
  intro R
  refine .ifAccept (by decide) (before_token rfl) (.pure fun _ h => h) ?_
  refine .ignoreCheck fun _ => .ite (fun _ => .pure fun _ h => h) fun _ => ?_
  refine .onGet fun s => Leads.at (.ite (fun _ => .pure fun _ h => h) fun _ => ?_) _
  refine .onCurrent fun t => Leads.at ?_ t
  exact .loud ((loud_report _).next fun _ => moves_recover.bind fun _ => .pure _)

theorem spansPast_binding (hg : ReadsRegions g) : SpansPast .code (binding g) := by
  intro R
  refine .expect (by decide) (fun t x ht h => past_declared (.inl ht) h) fun t => ?_
  refine ((spans_topPattern hg).lift (.inr ⟨rfl, rfl⟩) _).bind fun p => ?_
  extract_lets afterType
  have htype (type : Option TypeText) : Leads (Before .declaration (Before .code R))
      (afterType type) (fun _ => Before .code R) := by
    unfold afterType
    extract_lets afterInit
    have hinit (init : Option Expr) :
        Leads (Before .code R) (afterInit init) (fun _ => Before .code R) := by
      unfold afterInit
      extract_lets finish
      have hfinish (otherwise : Option Block) :
          Leads (Before .code R) (finish otherwise) (fun _ => Before .code R) :=
        .expect (by decide) (before_token rfl) fun _ => .pure fun _ h => h
      refine .ifAccept (by decide) (before_token rfl) ?_ (hfinish none)
      exact (hg.block.spans.map some R).bind hfinish
    refine .ifAccept (by decide) (fun t x ht h => .here (before_token rfl t x ht h)) ?_
      ((hinit none).pre fun _ => .here)
    exact (hg.expression.spans.map some R).bind hinit
  exact leads_annotated hg htype

theorem spansPast_blockLikeStmt (hg : ReadsRegions g) : SpansPast .code (blockLikeStmt g) := by
  intro R
  refine (spansPast_blockLike hg R).bind fun e => ?_
  refine .ignoreCheck fun _ => .ignoreCheck fun _ => .ite (fun _ => ?_) fun _ => ?_
  · refine (spans_postfixOps hg e R).bind fun e₁ => (spans_binaryRest hg _ e₁ R).bind fun e₂ => ?_
    exact (spans_assignRest hg e₂ R).bind fun e₃ => spans_finishStmt e₃ R
  · exact .maybe (by decide) (before_token rfl) fun _ => .pure fun _ h => h

theorem leads_stmt (hg : ReadsRegions g) (R : List Token → Prop) :
    Leads (Stopped R) (stmt g) (fun _ => Before .code R) := by
  refine leads_stoppedAttributes.bind fun _ => ?_
  refine .ifAccept (by decide) (fun t x ht h => .inl (past_token rfl t x ht h)) (.pure fun _ h => h) ?_
  refine .onCheck (fun t ht => ?_) ?_
  · exact .pureHere fun x hx h => .inr ⟨.inr (by rw [hx, ht]), h⟩
  refine .ignoreCheck fun _ => .ite (fun _ => ?_) fun _ => ?_
  · exact ((spansPast_binding hg).map some R).pre fun _ => .inl
  refine .afterLook looks_startsItem fun _ => .ite (fun _ => ?_) fun _ => ?_
  · refine (hg.item R).bind fun i => ?_
    split <;> exact .pure fun _ h => h
  refine .afterLook looks_startsBlockLike fun _ => .ite (fun _ => ?_) fun _ => ?_
  · exact ((spansPast_blockLikeStmt hg).map some R).pre fun _ => .inl
  · refine ((hg.expression R).pre fun _ => .inl).bind fun e => ?_
    exact (spans_finishStmt e).map some R

theorem spansPast_block (hg : ReadsRegions g) : SpansPast .code (block g) := by
  intro R
  refine Leads.withNoStruct (.expect (by decide) (past_open rfl) fun t => ?_) false
  refine (spans_partsUntil (fun t hbrace heof R =>
    (leads_stmt hg R).past_of_stopped hbrace heof) _).bind fun _ => ?_
  exact .expect (by decide) closing_here fun _ => .pure fun _ h => h

/-! ## Files -/

theorem readsRegions_grammar (depth : Nat) : ReadsRegions (grammar depth) := by
  induction depth with
  | zero =>
    exact ⟨fun _ => .failure, fun _ _ => .failure, fun _ => .failure, fun _ => .failure,
      fun _ => .failure, fun _ => .failure, fun _ => .failure, fun _ => .failure,
      fun _ => .failure, fun _ => .failure⟩
  | succ depth ih =>
    exact ⟨spansPast_expression ih, spansPast_precedence ih, spansPast_unary ih,
      spansPast_primary ih, fun _ => leads_primary_literal ih, spansPast_ifElse ih,
      spansPast_block ih, leads_item ih, spans_pattern ih, spans_skipType ih⟩

/-- The tokens of a file, whatever is skipped in it. -/
def Filed (x : List Token) : Prop := ∃ runs, FileTokens runs x

theorem Stopped.filed (h : Stopped Filed x) : Filed x := by
  obtain ⟨runs, y, hs, runs', hy⟩ := h.before
  exact ⟨runs ++ runs', .code hs hy⟩

/-- Where an item takes no token of a file there is a closing brace, which is then dropped. -/
theorem leads_fileItems (depth : Nat) :
    Leads Filed (items (grammar depth) .eof) (fun _ => Filed) := by
  have hitem := (readsRegions_grammar depth).item
  refine leads_loop fun acc => .unlessClosed (.pure fun _ h => h) fun t heof _ => ?_
  intro s b w hc hr
  obtain ⟨⟨a, u⟩, hpart, hr⟩ := Option.bind_eq_some_iff.mp
    (show ((grammar depth).item s).bind _ = _ from hr)
  change (if u.ahead.length = s.ahead.length then _ else _ :
    Parser (Step (List Item) (List Item))) u = _ at hr
  obtain ⟨hsu, hfiled⟩ := hitem Filed s a u hpart
  split at hr
  · rename_i hlength
    obtain ⟨⟨_, v⟩, hv, hr⟩ := Option.bind_eq_some_iff.mp (show (advance u).bind _ = _ from hr)
    cases hr
    obtain ⟨_, huv, hquiet⟩ := advance_eq_some hv
    refine ⟨hsu.trans huv, fun hq hrest => ?_⟩
    obtain ⟨rest, hs⟩ := State.ahead_of_current hc heof
    have hstopped := (hitem (· = u.ahead) s a u hpart).2 (hquiet.symm.trans hq) (.here rfl)
    rcases hstopped with ⟨_, y, _, hlt, rfl⟩ | ⟨hhead, _⟩
    · omega
    · rw [show s.ahead.headD beyond = t from hc] at hhead
      obtain rfl : w.ahead = rest := by
        rw [advance_cons ((hsu.ahead.eq_of_length hlength).trans hs)] at hv
        cases hv
        rfl
      obtain ⟨runs, hruns⟩ := hrest
      rw [hs]
      exact ⟨_, .strayBrace (hhead.resolve_left heof) hruns⟩
  · cases hr
    exact ⟨hsu, fun hq hrest => (hfiled hq (.here hrest)).filed⟩

/-- In an accepted source every delimiter is closed by one of its own kind and closes what
is innermost, save in the runs that are skipped: groups that are counted without regard to
kinds, generic arguments, heads of definitions, imports, and closing braces between items. -/
theorem accepted_balanced_but_skipped {source : Bytes} {file : File} {tokens : List Token}
    (h : parseFile source = .ok file) (ht : Token.tokenize source = .ok tokens) :
    ∃ runs, FileTokens runs tokens ∧ ((∀ run ∈ runs, Balanced run) → Balanced tokens) := by
  obtain ⟨items, s, hr, heof⟩ := parseTokens?_eq_some tokens
  have hbag : s.bag.hasErrors = false := by
    unfold parseFile parse parseTokens at h
    rw [ht] at h
    simp only [Functor.map, Except.map, hr] at h
    split at h
    · cases h
    · exact Bool.eq_false_iff.mpr ‹_›
  obtain ⟨hmoved, hfiled⟩ := leads_fileItems _ _ _ _ hr
  have hlength := length_le_one_of_eof ht hmoved.ahead heof
  have hend : Filed s.ahead := by
    refine ⟨[], .finish fun t hmem => ?_⟩
    cases hs : s.ahead with
    | nil => rw [hs] at hmem; cases hmem
    | cons a rest =>
      rw [hs] at hmem hlength
      obtain rfl : rest = [] := List.eq_nil_of_length_eq_zero (by simpa using hlength)
      rw [State.current, hs] at heof
      rw [List.mem_singleton.mp hmem]
      exact heof
  obtain ⟨runs, hruns⟩ := hfiled (hmoved.bag_eq_of_no_errors hbag) hend
  exact ⟨runs, hruns, hruns.balanced⟩

/-- Nothing here is balanced: an attribute, generic arguments, the length of an array, a
where clause, the arguments of a macro, the head of a struct, and a closing brace too many. -/
theorem accepted_balanced_but_skipped_everywhere :
    ∃ source file tokens runs,
      source = Bytes.ofString
        "#[a\x7b)] pub fn f<F(>(x: V<]>) -> [u8; ) where ) \x7b m![[;)) \x7d \x7d struct S<[>(;);" ∧
      parseFile source = .ok file ∧ file.items.length = 2 ∧ Token.tokenize source = .ok tokens ∧
      FileTokens runs tokens ∧ ((∀ run ∈ runs, Balanced run) → Balanced tokens) := by
  obtain ⟨source, hsource⟩ : ∃ source, source = Bytes.ofString
      "#[a\x7b)] pub fn f<F(>(x: V<]>) -> [u8; ) where ) \x7b m![[;)) \x7d \x7d struct S<[>(;);" :=
    ⟨_, rfl⟩
  have htwo : (parseFile source).toOption.map (·.items.length) = some 2 := by
    rw [hsource]
    decide +kernel
  obtain ⟨file, hf, hlength⟩ := Option.map_eq_some_iff.mp htwo
  obtain ⟨tokens, ht⟩ : ∃ tokens, Token.tokenize source = .ok tokens := by
    rw [hsource]
    exact ⟨_, rfl⟩
  obtain ⟨runs, hruns, hbalanced⟩ := accepted_balanced_but_skipped (ok_of_toOption hf) ht
  exact ⟨source, file, tokens, runs, hsource, ok_of_toOption hf, hlength, ht, hruns, hbalanced⟩

/-- A closing brace between items is dropped without a word. -/
theorem parseFile_stray_brace :
    ∃ tokens, Token.tokenize "fn f() \x7b\x7d \x7d" = .ok tokens ∧
      parseFile "fn f() \x7b\x7d \x7d" =
        .ok ⟨[.fn "f" [] none (some (.mk [] ⟨1, 8⟩)) [] false ⟨1, 1⟩]⟩ ∧
      ¬ Balanced tokens := by
  refine ⟨_, rfl, rfl, ?_⟩
  decide

end RustLua.Parser
