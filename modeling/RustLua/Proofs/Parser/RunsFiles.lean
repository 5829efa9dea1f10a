import RustLua.Proofs.Parser.RunsExprs

/-! # Runs of the productions: items, statements and the knot

The last productions, and the knot. Its depth is counted against the tokens left: for each of
them the grammar may turn on itself four times. Three of these turns take no token (an `if`
without its keyword asks for a block, a block without its brace for an expression, an
expression for the block that it starts with); the fourth always does. -/
namespace RustLua.Parser

open RustLua.Tree

variable {n : Nat} {tokens : List Token} {g : Grammar} {t : Token}

/-! ## Functions -/

/-- The parts of a placed function. -/
structure FnParts.Placed (tokens : List Token) (fn : FnParts) : Prop where
  pos : Stands tokens fn.pos
  name : IsName tokens fn.name
  params : ∀ p ∈ fn.params, PlacedParam tokens p
  returns : ∀ x ∈ fn.returns, IsText tokens x.text
  body : ∀ b ∈ fn.body, PlacedBlock tokens b

theorem State.peek_zero (s : State) : s.peek 0 = s.current := by
  rw [State.peek, State.current]
  cases s.ahead <;> rfl

theorem State.peek_mem {s : State} {i : Nat} (hs : s.ahead ⊆ tokens)
    (h : (s.peek i).kind ≠ .eof) : s.peek i ∈ tokens := by
  unfold State.peek at *
  rw [List.getD_eq_getElem?_getD] at *
  cases hl : s.ahead[i]? with
  | none => rw [hl] at h; exact absurd rfl h
  | some t => exact hs (List.mem_of_getElem? hl)

/-- A receiver is made of the tokens that were looked at, one after the other. -/
theorem peek_ne_eof_of_receiverWidth {s : State} :
    ∀ i < receiverWidth s, (s.peek i).kind ≠ .eof := by
  have hnext {n : Nat} {k : Token.Kind} (hn : ∀ i < n, (s.peek i).kind ≠ .eof)
      (hk : (s.peek n).kind = k) (hne : k ≠ .eof) : ∀ i < n + 1, (s.peek i).kind ≠ .eof := by
    intro i hi
    rcases Nat.lt_succ_iff_lt_or_eq.mp hi with hi | rfl
    · exact hn i hi
    · exact hk ▸ hne
  unfold receiverWidth
  extract_lets ref life name
  have href : ∀ i < ref, (s.peek i).kind ≠ .eof := by
    simp only [ref]
    split
    · exact hnext (fun _ hi => absurd hi (Nat.not_lt_zero _)) ‹_› (by decide)
    · exact fun _ hi => absurd hi (Nat.not_lt_zero _)
  have hlife : ∀ i < life, (s.peek i).kind ≠ .eof := by
    simp only [life]
    split
    · rename_i hk
      rw [hk.1] at href
      exact hnext href hk.2 (by decide)
    · exact href
  have hname : ∀ i < name, (s.peek i).kind ≠ .eof := by
    simp only [name]
    split
    · exact hnext hlife ‹_› (by decide)
    · exact hlife
  split
  · exact hnext hname ‹_› (by decide)
  · exact fun _ hi => absurd hi (Nat.not_lt_zero _)

theorem receiverWidth_ne_eof (s : State) :
    ∀ t ∈ s.ahead.take (receiverWidth s), t.kind ≠ .eof := by
  intro t ht
  obtain ⟨i, hi, rfl⟩ := List.mem_iff_getElem.mp ht
  rw [List.length_take] at hi
  have hpeek := peek_ne_eof_of_receiverWidth i (s := s) (by omega)
  have hlt : i < s.ahead.length := by omega
  rw [State.peek, List.getD_eq_getElem?_getD, List.getElem?_eq_getElem hlt] at hpeek
  rwa [List.getElem_take]

/-- A receiver holds the word `self`. -/
theorem occurs_of_receiverWidth {s : State} (hs : s.ahead ⊆ tokens) (h : 0 < receiverWidth s) :
    Occurs tokens .kwSelf := by
  unfold receiverWidth at h
  extract_lets ref life name at h
  split at h
  · rename_i hk
    exact ⟨s.peek name, State.peek_mem hs (by rw [hk]; decide), hk⟩
  · cases h

theorem reads_fnParam (hg : Sound n tokens g) :
    Reads n tokens t (fnParam g) (PlacedParam tokens) := by
  refine reads_skipAttributes.next fun _ _ => .ofSeen fun ht => .onCurrent ?_
  rintro s rfl
  change RunsFrom n tokens s (if 0 < receiverWidth s then _ else _) _ _
  split
  · rename_i hw
    intro hs
    have hpos : Stands tokens s.current.pos :=
      ht.stands (s.peek_zero ▸ peek_ne_eof_of_receiverWidth 0 hw)
    refine (runsFrom_skip (w := fun _ => false) (receiverWidth_ne_eof s) nofun).bind
      (fun _ _ => RunsAt.weaken ?_) hs
    refine (reads_accept (by decide)).next fun _ _ => ?_
    extract_lets rest
    have hrest (type : Option TypeText) (t' : Token) :
        Reads n tokens t' (rest type)
          (fun q => (∀ x ∈ type, IsText tokens x.text) → PlacedParam tokens q) :=
      .pure fun ht => .receiver ht hpos (occurs_of_receiverWidth hs.subset hw)
    exact reads_optionalType hg hrest
  · refine (reads_pattern hg.pred hg.primary).bind (fun p _ => .pass (by decide) fun _ => ?_) s rfl
    exact (reads_typeText hg).bind fun _ _ => .pure fun ht => .plain (by simpa using ht)

theorem reads_fnParts (hg : Sound (n - 1) tokens g) (hk : t.kind = .kwFn) :
    Reads n tokens t (fnParts g) (FnParts.Placed tokens) := by
  refine .ofSeen fun ht => .expected hk (by decide) fun name => .named fun _ => ?_
  have hpos : Stands tokens t.pos := ht.stands (hk ▸ by decide)
  extract_lets rest
  have hrest (u : Unit) (t' : Token) : Reads (n - 1) tokens t' (rest u)
      (fun fn => IsName tokens name.literal → fn.Placed tokens) := by
    refine .pass (by decide) fun _ => (reads_commaList fun _ => reads_fnParam hg).bind fun params _ => ?_
    refine .pass (by decide) fun _ => (reads_accept (by decide)).next fun _ _ => ?_
    extract_lets afterReturns
    have hreturns (returns : Option TypeText) (t' : Token) :
        Reads (n - 1) tokens t' (afterReturns returns) (fun fn =>
          (∀ x ∈ returns, IsText tokens x.text) → (∀ p ∈ params, PlacedParam tokens p) →
            IsName tokens name.literal → fn.Placed tokens) := by
      refine reads_skipWhere.next fun _ _ => (reads_accept (by decide)).next fun _ _ => ?_
      refine .ite (fun _ => .pure fun ht hp hn => ⟨hpos, hn, hp, ht, by simp⟩) fun _ => ?_
      exact hg.body.optional.bind fun body _ => .pure fun hb ht hp hn => ⟨hpos, hn, hp, ht, hb⟩
    exact reads_optionalType hg hreturns
  exact .ifKind (fun _ => reads_skipAngles.next hrest) fun _ => hrest () _

/-! ## Other items -/

theorem reads_visibility : Reads n tokens t visibility (fun _ => True) := by
  refine .ifAccept (by decide) (fun _ _ => ?_) fun _ => .pure trivial
  refine .ifKind (fun _ => ?_) fun _ => .pure trivial
  exact reads_skipBalanced.next fun _ _ => .pure trivial

theorem reads_typeDef (hk : t.kind ≠ .eof) (keyword : Bytes) :
    Reads n tokens t (typeDef keyword) (PlacedItem tokens) := by
  refine .ofSeen fun ht => .take hk fun _ => .named fun _ => ?_
  refine (reads_skipLoop fun _ _ => .onKind ?_).next fun _ _ => .pure (.typeDef (ht.stands hk))
  split
  case h_1 => exact (reads_report _).next fun _ _ => .done trivial
  case h_2 hk => exact .take (hk ▸ by decide) fun _ => .pure trivial
  case h_3 => exact reads_skipBalanced.next fun _ _ => .done trivial
  case h_4 hk | h_5 hk =>
    exact (takes_skipBalanced (hk ▸ by decide)).past fun _ _ => .pure fun _ => trivial
  case h_6 hk => exact (runsAt_skipAngles fun _ => hk).past fun _ _ => .pure fun _ => trivial
  case h_7 heof _ _ _ _ _ => exact .take heof fun _ => .pure trivial

theorem reads_foreignItem (hg : Sound n tokens g) :
    Reads n tokens t (foreignItem g) (fun o => ∀ i ∈ o, IsName tokens i.name) := by
  refine reads_skipAttributes.next fun _ _ => reads_visibility.next fun _ _ => ?_
  refine (reads_accept (by decide)).next fun _ _ => ?_
  extract_lets rest
  have hrest (u : Unit) (t : Token) :
      Reads n tokens t (rest u) (fun o => ∀ i ∈ o, IsName tokens i.name) := by
    refine .ofSeen fun ht => .onCurrent ?_
    split
    · rename_i hk
      refine (reads_fnParts hg.pred hk).bind fun fn _ => ?_
      extract_lets done
      have hdone (u : Unit) (t' : Token) : Reads n tokens t' (done u)
          (fun o => fn.Placed tokens → ∀ i ∈ o, IsName tokens i.name) :=
        .pure fun hf => by simpa using hf.name
      refine .ite (fun _ => ?_) fun _ => hdone () _
      exact (reads_reportAt (ht (hk ▸ by decide)) _).next hdone
    · rename_i hk
      refine .take (hk ▸ by decide) fun _ => (reads_accept (by decide)).next fun _ _ => ?_
      refine .named fun _ => .pass (by decide) fun _ => (reads_typeText hg.pred).next fun _ _ => ?_
      exact .pass (by decide) fun _ => .pure fun hn => by simpa using hn
    · rename_i hk
      exact (reads_typeDef (hk ▸ by decide) _).next fun _ _ => .pure (by simp)
    · exact (reads_report _).next fun _ _ => reads_recover.next fun _ _ => .pure (by simp)
  refine .onWord (.ite (fun hword => ?_) fun _ => hrest () _)
  exact .take ((of_decide_eq_true hword).1 ▸ by decide) fun _ => (hrest () _).pred

theorem reads_externItem (hg : Sound (n - 1) tokens g) (hk : t.kind = .kwExtern) :
    Reads n tokens t (externItem g) (PlacedItem tokens) := by
  refine .ofSeen fun ht => .expected hk (by decide) fun t' => ?_
  have hpos : Stands tokens t.pos := ht.stands (hk ▸ by decide)
  refine .ifAccept (by decide) (fun _ _ => ?_) fun _ => .onCheck ?_
  · refine (reads_textOf (reads_skipToSemicolon _)).bind fun _ _ => ?_
    exact .pass (by decide) fun _ => .pure (.externCrate hpos)
  · extract_lets rest
    have hrest (abi : Bytes) (t' : Token) : Reads (n - 1) tokens t' (rest abi) (PlacedItem tokens) := by
      refine .pass (by decide) fun _ => (reads_partsUntil fun _ => reads_foreignItem hg).bind fun _ _ => ?_
      exact .pass (by decide) fun _ => .pure (.foreign hpos)
    refine .ite (fun hlit => ?_) fun _ => hrest _ _
    rw [bind_map_left]
    exact .take (of_decide_eq_true hlit ▸ by decide) fun _ => (hrest _ _).pred

theorem reads_constItem (hg : Sound (n - 1) tokens g) (hk : t.kind ≠ .eof) :
    Reads n tokens t (constItem g) (PlacedItem tokens) := by
  refine .ofSeen fun ht => .take hk fun _ => (reads_accept (by decide)).next fun _ t' => ?_
  have hpos := ht.stands hk
  refine .ofSeen fun ht' => (reads_accept (by decide)).bind fun _ _ => ?_
  extract_lets afterName
  have hname (name : Bytes) (t' : Token) : Reads (n - 1) tokens t' (afterName name) (fun i =>
      IsName tokens name ∨ name = "_" ∧ Occurs tokens .underscore → PlacedItem tokens i) := by
    refine (reads_accept (by decide)).next fun _ _ => ?_
    extract_lets afterType
    have htype (type : Option TypeText) (t' : Token) :
        Reads (n - 1) tokens t' (afterType type) (fun i =>
          (∀ x ∈ type, IsText tokens x.text) →
            IsName tokens name ∨ name = "_" ∧ Occurs tokens .underscore → PlacedItem tokens i) := by
      refine (reads_accept (by decide)).next fun _ _ => .ite (fun _ => ?_) fun _ => ?_
      · refine hg.expression.optional.bind fun value _ => .pass (by decide) fun _ => ?_
        exact .pure fun hv ht hn => .const hpos ht hn hv
      · rw [pure_bind]
        exact .pass (by decide) fun _ => .pure fun ht hn => .const hpos ht hn (by simp)
    exact reads_optionalType hg htype
  refine .ite (fun hu => ?_) fun _ => ?_
  · refine (hname _ _).mono fun _ h hkind => h (.inr ⟨rfl, t', ?_, hkind hu⟩)
    exact ht' (hkind hu ▸ by decide)
  · rw [bind_map_left]
    exact .named fun _ => (hname _ _).mono fun _ h hn _ => h (.inl hn)

theorem reads_items (hg : Sound n tokens g) (closer : Token.Kind) :
    Reads n tokens t (items g closer) (fun l => ∀ i ∈ l, PlacedItem tokens i) :=
  reads_partsUntil fun _ => hg.item

theorem reads_moduleItem (hg : Sound (n - 1) tokens g) (hk : t.kind = .kwMod) :
    Reads n tokens t (moduleItem g) (PlacedItem tokens) := by
  refine .ofSeen fun ht => .expected hk (by decide) fun _ => .named fun _ => ?_
  have hpos : Stands tokens t.pos := ht.stands (hk ▸ by decide)
  refine .ifAccept (by decide) (fun _ _ => .pure (.fileModule hpos)) fun _ => ?_
  refine .pass (by decide) fun _ => (reads_items hg _).bind fun inner _ => .pass (by decide) fun _ => ?_
  exact .pure fun hi hn => .inlineModule hpos hn hi

theorem reads_useItem (hk : t.kind = .kwUse) :
    Reads n tokens t useItem (PlacedItem tokens) := by
  refine .ofSeen fun ht => .expected hk (by decide) fun _ => ?_
  refine (reads_textOf (reads_skipToSemicolon _)).bind fun _ _ => .pass (by decide) fun _ => ?_
  exact .pure (.use (ht.stands (hk ▸ by decide)))

theorem reads_implItem (hg : Sound (n - 1) tokens g) (hk : t.kind = .kwImpl) :
    Reads n tokens t (implItem g) (PlacedItem tokens) := by
  refine .ofSeen fun ht => .expected hk (by decide) fun _ => .onCheck ?_
  extract_lets rest
  have hrest (u : Unit) (t' : Token) : Reads (n - 1) tokens t' (rest u) (PlacedItem tokens) := by
    refine (reads_accept (by decide)).next fun _ _ => (reads_typeText hg).bind fun first _ => ?_
    refine (reads_accept (by decide)).next fun _ _ => ?_
    extract_lets tail
    have htail (second : Option TypeText) (t' : Token) :
        Reads (n - 1) tokens t' (tail second) (fun i => (∀ x ∈ second, IsText tokens x.text) →
          IsText tokens first.text → PlacedItem tokens i) := by
      refine reads_skipWhere.next fun _ _ => .pass (by decide) fun _ => ?_
      refine (reads_items hg _).bind fun inner _ => .pass (by decide) fun _ => ?_
      split
      · exact .pure fun hi hs hf => .impl (ht.stands (hk ▸ by decide)) (hs _ rfl) hf hi
      · exact .pure fun hi _ hf =>
          .impl (ht.stands (hk ▸ by decide)) hf ⟨[], List.nil_infix, rfl⟩ hi
    exact reads_optionalType hg htail
  exact .ite (fun _ => reads_skipAngles.next hrest) fun _ => hrest () _

theorem reads_macroItem (hk : t.kind = .ident) :
    Reads n tokens t macroItem (PlacedItem tokens) := by
  have hne : t.kind ≠ .eof := hk ▸ by decide
  refine .ofSeen fun ht => .take hne fun _ => .pass (by decide) fun t' => .ofSeen fun ht' => .onCheck ?_
  extract_lets afterName
  have hname (name : Bytes) (hn : IsName tokens name) (t' : Token) :
      Reads (n - 1) tokens t' (afterName name) (PlacedItem tokens) := by
    refine .onKind ?_
    extract_lets done
    have hdone (u : Unit) (t' : Token) : Reads (n - 1) tokens t' (done u) (PlacedItem tokens) :=
      .pure (.typeDef (ht.stands hne) hn)
    refine .ite (fun _ => ?_) fun _ => .onCurrent ((reads_report _).next hdone)
    refine reads_skipBalanced.next fun _ _ => .ite (fun _ => ?_) fun _ => ?_
    · exact (reads_accept (by decide)).next fun _ => hdone ()
    · exact .pass (by decide) (hdone ())
  refine .ite (fun hident => ?_) fun _ => hname _ ⟨t, ht hne, .inl hk, rfl⟩ _
  have hident := of_decide_eq_true hident
  have hne' : t'.kind ≠ .eof := hident ▸ by decide
  rw [bind_map_left]
  exact .take hne' fun t'' => (hname _ ⟨t', ht' hne', .inl hident, rfl⟩ t'').pred

theorem reads_qualifiers : Reads n tokens t qualifiers (fun _ => True) := by
  refine reads_skipLoop fun abi _ => .onGet fun s hs => ?_
  extract_lets next
  rw [hs]
  split
  · rename_i hk
    exact .take (hk ▸ by decide) fun _ => .pure trivial
  · rename_i hk
    exact .ite (fun _ => .take (hk ▸ by decide) fun _ => .pure trivial) fun _ => .done trivial
  · rename_i hk
    exact .ite (fun _ => .take (hk ▸ by decide) fun _ => .pure trivial) fun _ => .done trivial
  · rename_i hk
    refine .ite (fun _ => .done trivial) fun _ => .take (hk ▸ by decide) fun _ => ?_
    refine .ifKind (fun hk => ?_) fun _ => .pure trivial
    exact .take (hk ▸ by decide) fun _ => .pure trivial
  · exact .done trivial

theorem reads_noItem (t' : Token) :
    Reads n tokens t (noItem t') (fun o => ∀ i ∈ o, PlacedItem tokens i) :=
  (reads_report _).next fun _ _ => reads_recover.next fun _ _ => .pure (by simp)

theorem reads_item (hg : Sound (n - 1) tokens g) :
    Reads n tokens t (item g) (fun o => ∀ i ∈ o, PlacedItem tokens i) := by
  refine reads_skipAttributes.next fun _ _ => .onCheck (.onCheck ?_)
  refine .ite (fun _ => .pure (by simp)) fun _ => reads_visibility.next fun _ _ => ?_
  refine reads_qualifiers.next fun _ t => .onCurrent ?_
  split
  case h_1 hk =>
    refine (reads_fnParts hg hk).bind fun fn _ => .pure fun hf => ?_
    simpa using .fn hf.pos hf.name hf.params hf.returns hf.body
  case h_2 hk => exact (reads_externItem hg hk).optional
  case h_3 hk | h_4 hk => exact (reads_constItem hg (hk ▸ by decide)).optional
  case h_5 hk => exact (reads_moduleItem hg hk).optional
  case h_6 hk => exact (reads_useItem hk).optional
  case h_7 hk => exact (reads_implItem hg hk).optional
  case h_12 hk =>
    refine .ite (fun _ => (reads_typeDef (hk ▸ by decide) _).optional) fun _ => .onPeek fun _ => ?_
    exact .ite (fun _ => (reads_macroItem hk).optional) fun _ => reads_noItem t
  case h_13 => exact reads_noItem t
  all_goals
    rename_i hk
    exact (reads_typeDef (hk ▸ by decide) _).optional

/-! ## Statements -/

theorem reads_startsItem : Reads n tokens t startsItem (fun _ => True) := by
  refine .onGet fun s _ => ?_
  extract_lets next
  split <;> exact .pure trivial

theorem RunsAt.onBlockLike {α : Type} {p q : Parser α} {Q : α → Prop}
    (hp : t.kind ∈ blockKinds → Reads n tokens t p Q) (hq : Reads n tokens t q Q) :
    Reads n tokens t (startsBlockLike >>= fun b => if b then p else q) Q := by
  unfold startsBlockLike
  rw [bind_assoc]
  refine .onKind ?_
  split
  case h_7 hk | h_8 hk =>
    rw [bind_assoc]
    refine .onPeek fun k' => ?_
    rw [pure_bind]
    exact .ite (fun _ => hp (by rw [hk]; decide)) fun _ => hq
  case h_9 => rw [pure_bind]; exact hq
  all_goals
    rename_i hk
    rw [pure_bind]
    exact hp (by rw [hk]; decide)

theorem reads_finishStmt (e : Expr) :
    Reads n tokens t (finishStmt e) (fun s => PlacedExpr tokens e → PlacedStmt tokens s) := by
  refine .ifAccept (by decide) (fun _ _ => .pure .expr) fun _ => ?_
  refine .ifKind (fun _ => .pure .expr) fun _ => .onGet fun _ _ => ?_
  refine .ite (fun _ => .pure .expr) fun _ => .onCurrent ?_
  exact (reads_report _).next fun _ _ => reads_recover.next fun _ _ => .pure .expr

theorem reads_binding (hg : Sound (n - 1) tokens g) (hk : t.kind = .kwLet) :
    Reads n tokens t (binding g) (PlacedStmt tokens) := by
  refine .ofSeen fun ht => .expected hk (by decide) fun _ => (reads_topPattern hg).bind fun p _ => ?_
  have hpos : Stands tokens t.pos := ht.stands (hk ▸ by decide)
  refine (reads_accept (by decide)).next fun _ _ => ?_
  extract_lets afterType
  have htype (type : Option TypeText) (t' : Token) : Reads (n - 1) tokens t' (afterType type)
      (fun s => (∀ x ∈ type, IsText tokens x.text) → PlacedPattern tokens p →
        PlacedStmt tokens s) := by
    refine (reads_accept (by decide)).next fun _ _ => ?_
    extract_lets afterInit
    have hinit (init : Option Expr) (t' : Token) : Reads (n - 1) tokens t' (afterInit init)
        (fun s => (∀ e ∈ init, PlacedExpr tokens e) → (∀ x ∈ type, IsText tokens x.text) →
          PlacedPattern tokens p → PlacedStmt tokens s) := by
      refine (reads_accept (by decide)).next fun _ _ => .ite (fun _ => ?_) fun _ => ?_
      · refine hg.body.optional.bind fun otherwise _ => .pass (by decide) fun _ => .pure ?_
        exact fun ho hi ht hp => .binding hpos ht hp hi ho
      · rw [pure_bind]
        exact .pass (by decide) fun _ => .pure fun hi ht hp => .binding hpos ht hp hi (by simp)
    refine .ite (fun _ => hg.expression.optional.bind hinit) fun _ => ?_
    exact (hinit none _).mono fun _ h => h (by simp)
  exact reads_optionalType hg htype

theorem reads_blockLikeStmt (hg : Sound (n - 1) tokens g) (hb : Braces n tokens g)
    (hk : t.kind ∈ blockKinds) : Reads n tokens t (blockLikeStmt g) (PlacedStmt tokens) := by
  refine (reads_blockLike hg hb hk).bind fun e _ => .onCheck (.onCheck (.ite (fun _ => ?_) fun _ => ?_))
  · refine (reads_postfixOps hg e).bind fun e₁ _ => (reads_binaryRest hg _ e₁).bind fun e₂ _ => ?_
    refine (reads_assignRest hg e₂).bind fun e₃ _ => (reads_finishStmt e₃).mono fun _ h => ?_
    exact fun h₃ h₂ h₁ he => h (h₃ (h₂ (h₁ he)))
  · exact (reads_accept (by decide)).next fun _ _ => .pure .expr

theorem reads_stmt (hg : Sound (n - 1) tokens g) (hb : Braces n tokens g)
    (he : ∀ {t}, Reads n tokens t g.expression (PlacedExpr tokens))
    (hi : ∀ {t}, Reads n tokens t g.item (fun o => ∀ i ∈ o, PlacedItem tokens i)) :
    Reads n tokens t (stmt g) (fun o => ∀ s ∈ o, PlacedStmt tokens s) := by
  refine reads_skipAttributes.next fun _ _ => ?_
  refine .ifAccept (by decide) (fun _ _ => .pure (by simp)) fun _ => ?_
  refine .ifKind (fun _ => .pure (by simp)) fun _ => ?_
  refine .ifKind (fun hk => (reads_binding hg hk).optional) fun _ => ?_
  refine reads_startsItem.next fun _ _ => .ite (fun _ => ?_) fun _ => ?_
  · refine hi.bind fun o _ => ?_
    split
    · exact .pure fun hi => by simpa using .item (hi _ rfl)
    · exact .pure fun _ => by simp
  · refine .onBlockLike (fun hk => (reads_blockLikeStmt hg hb hk).optional) ?_
    refine he.bind fun e _ => (reads_finishStmt e).optional.mono fun o h he s hs => ?_
    exact h s hs he

/-- What follows the brace of a block. -/
theorem reads_afterBrace {pos : Pos}
    (hs : ∀ {t}, Reads n tokens t (stmt g) (fun o => ∀ s ∈ o, PlacedStmt tokens s)) :
    Reads n tokens t (do
      let stmts ← partsUntil .braceClose (stmt g)
      let _ ← expect .braceClose
      return .mk stmts pos)
      (fun b => Stands tokens pos → BlockRead tokens b → PlacedBlock tokens b) :=
  (reads_partsUntil fun _ => hs).bind fun _ _ => .pass (by decide) fun _ =>
    .pure fun hs hpos hr => .mk hpos hs hr

theorem reads_block_there (hg : Sound (n - 1) tokens g) (hk : t.kind = .braceOpen) :
    Reads n tokens t (block g) (fun b => BlockRead tokens b → PlacedBlock tokens b) := by
  refine .ofSeen fun ht => .withNoStruct false (.expected hk (by decide) fun _ => ?_)
  refine (reads_afterBrace ?_).mono fun _ h => h (ht.stands (hk ▸ by decide))
  exact reads_stmt hg.pred (fun _ => hg.body) hg.expression hg.item

/-- Where no brace stands, the first statement may start here. -/
theorem reads_block (hg : Sound (n - 1) tokens g) (hb : Braces n tokens g)
    (he : ∀ {t}, Reads n tokens t g.expression (PlacedExpr tokens))
    (hi : ∀ {t}, Reads n tokens t g.item (fun o => ∀ i ∈ o, PlacedItem tokens i)) :
    Reads n tokens t (block g)
      (fun b => t.kind = .braceOpen ∧ (BlockRead tokens b → PlacedBlock tokens b)) := by
  refine .ofSeen fun ht => .withNoStruct false (.expect (by decide) (fun hk _ => ?_) fun _ => ?_)
  · refine (reads_afterBrace ?_).mono fun _ h => ⟨hk, h (ht.stands (hk ▸ by decide))⟩
    exact reads_stmt hg.pred (fun _ => hg.body) hg.expression hg.item
  · exact (reads_afterBrace (reads_stmt hg hb he hi)).mono fun _ _ => trivial

/-! ## The knot -/

/-- What a block was read from is a witness for it. -/
theorem RunsAt.blockRead {d : Nat} {P : Block → Prop} (h : Reads n tokens t (block (grammar d)) P) :
    Reads n tokens t (block (grammar d)) (fun b => BlockRead tokens b ∧ P b) := by
  intro s hc hs
  obtain ⟨hends, hreach⟩ := h s hc hs
  refine ⟨hends, fun b u hr => { hreach b u hr with quiet := fun hq => ?_ }⟩
  exact ⟨⟨d, s, u, hs, hr, hq⟩, (hreach b u hr).quiet hq⟩

/-- One turn. Before a token is taken an expression may ask for a block, a block for an
expression or an item, a pattern for an operand, and an `if` for an expression or a block. -/
theorem Sound.turn {d : Nat} (hg : Sound (n - 1) tokens (grammar d))
    (hb : Braces n tokens (grammar d))
    (he : ∀ {t}, Reads n tokens t (grammar d).expression (PlacedExpr tokens))
    (hp : ∀ {t}, Reads n tokens t (grammar d).primary (PlacedExpr tokens))
    (hi : ∀ {t}, Reads n tokens t (grammar d).item (fun o => ∀ i ∈ o, PlacedItem tokens i))
    (hbody : ∀ {t}, Reads n tokens t (grammar d).block (PlacedBlock tokens)) :
    Sound n tokens (grammar (d + 1)) where
  expression := reads_expression hg hb
  precedence := reads_precedence hg hb
  unary := reads_unary hg hb
  primary := reads_primary hg hb
  ifElse := reads_ifElse hg he hbody
  block := (reads_block hg hb he hi).blockRead.mono fun _ h => ⟨h.2.1, h.2.2 h.1⟩
  item := reads_item hg
  pattern := reads_pattern hg hp
  skipType := reads_skipType hg

/-- Whatever the depth, what the grammar gives is right. -/
theorem sound_zero (d : Nat) : Sound 0 tokens (grammar d) := by
  induction d with
  | zero =>
    exact ⟨.failure, fun _ => .failure, .failure, .failure, .failure, .failure, .failure, .failure,
      .failure⟩
  | succ d ih => exact .turn ih (fun _ => ih.body) ih.expression ih.primary ih.item ih.body

section

-- The grammar ends on fewer tokens; what follows is one turn after the other on one more.
variable (ih : ∀ d, 4 * n ≤ d → Sound n tokens (grammar d)) {d : Nat}

include ih

/-- What takes a token before it calls the grammar. -/
theorem grammar_first_turn (hd : 4 * n + 1 ≤ d) :
    (∀ {t}, Reads (n + 1) tokens t (grammar d).item (fun o => ∀ i ∈ o, PlacedItem tokens i)) ∧
      Braces (n + 1) tokens (grammar d) := by
  obtain ⟨e, rfl⟩ : ∃ e, d = e + 1 := ⟨d - 1, by omega⟩
  have hg : Sound (n + 1 - 1) tokens (grammar e) := ih e (by omega)
  exact ⟨reads_item hg, fun hk => (reads_block_there hg hk).blockRead.mono fun _ h => h.2 h.1⟩

/-- What may start with a block. -/
theorem grammar_second_turn (hd : 4 * n + 2 ≤ d) :
    (∀ {t}, Reads (n + 1) tokens t (grammar d).expression (PlacedExpr tokens)) ∧
      ∀ {t}, Reads (n + 1) tokens t (grammar d).primary (PlacedExpr tokens) := by
  obtain ⟨e, rfl⟩ : ∃ e, d = e + 1 := ⟨d - 1, by omega⟩
  have hg : Sound (n + 1 - 1) tokens (grammar e) := ih e (by omega)
  obtain ⟨-, hb⟩ := grammar_first_turn ih (d := e) (by omega)
  exact ⟨reads_expression hg hb, reads_primary hg hb⟩

/-- What may start with an expression. -/
theorem grammar_third_turn (hd : 4 * n + 3 ≤ d) {t : Token} :
    Reads (n + 1) tokens t (grammar d).block (PlacedBlock tokens) := by
  obtain ⟨e, rfl⟩ : ∃ e, d = e + 1 := ⟨d - 1, by omega⟩
  have hg : Sound (n + 1 - 1) tokens (grammar e) := ih e (by omega)
  obtain ⟨hi, hb⟩ := grammar_first_turn ih (d := e) (by omega)
  obtain ⟨he, -⟩ := grammar_second_turn ih (d := e) (by omega)
  exact (reads_block hg hb he hi).blockRead.mono fun _ h => h.2.2 h.1

end

/-- Four turns for each token are enough at every entry point. -/
theorem sound_grammar {d : Nat} (hd : 4 * n ≤ d) : Sound n tokens (grammar d) := by
  induction n generalizing d with
  | zero => exact sound_zero d
  | succ n ih =>
    obtain ⟨e, rfl⟩ : ∃ e, d = e + 1 := ⟨d - 1, by omega⟩
    have hg : Sound (n + 1 - 1) tokens (grammar e) := ih (by omega)
    obtain ⟨hi, hb⟩ := grammar_first_turn (fun _ => ih) (d := e) (by omega)
    obtain ⟨he, hp⟩ := grammar_second_turn (fun _ => ih) (d := e) (by omega)
    exact .turn hg hb he hp hi (grammar_third_turn (fun _ => ih) (by omega))

end RustLua.Parser
