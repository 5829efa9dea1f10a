import RustLua.Proofs.Parser.AgreementExprs
import RustLua.Proofs.Parser.Steps

/-! # Agreement on items, statements and blocks

Items and statements end in semicolons, so they are compared only where more of the common
tokens follow: the block around them is still to be closed. -/
namespace RustLua.Parser

open RustLua.Tree Result

variable {α β : Type} {fork : Fork} {K : Prop} {c n room : Nat} {s t : State} {g g' : Grammar}

/-! ## Functions -/

instance : Result FnParts :=
  ⟨fun fn => ⟨fn.name, bare fn.params, bare fn.returns, bare fn.body, nowhere⟩,
    fun fn => clear fn.body⟩

theorem agree_skip (m : Nat) : Agree fork True 0 n (skip m) (skip m) := by
  induction m with
  | zero => exact agree_pure _
  | succ m ih => exact .advance fun _ _ _ _ _ => ih

/-- The next `i` tokens may not stand at the end. -/
def Inside (s : State) (i : Nat) : Prop := ∀ j < i, ender (s.peek j).kind = false

theorem Inside.zero : Inside s 0 := fun _ hj => absurd hj (Nat.not_lt_zero _)

theorem Inside.succ {i : Nat} {k : Token.Kind} (h : Inside s i) (hk : ender k = false)
    (hi : (s.peek i).kind = k) : Inside s (i + 1) := by
  intro j hj
  rcases Nat.lt_succ_iff_lt_or_eq.mp hj with hj | rfl
  · exact h j hj
  · rw [hi, hk]

theorem Sight.receiverWidth_eq (h : Sight room s t) : receiverWidth s = receiverWidth t := by
  have hat {i : Nat} {k : Token.Kind} (hi : Inside s i) (hk : ender k = false) :
      (s.peek i).kind = k ↔ (t.peek i).kind = k := (h.peek i hi).kind_iff hk
  -- behind the reference and its lifetime, `i` tokens further
  have hname {i : Nat} (hi : Inside s i) :
      (let name := if (s.peek i).kind = .kwMut then i + 1 else i
        if (s.peek name).kind = .kwSelf then name + 1 else 0) =
      (let name := if (t.peek i).kind = .kwMut then i + 1 else i
        if (t.peek name).kind = .kwSelf then name + 1 else 0) := by
    simp only [← hat hi (show ender .kwMut = false from rfl)]
    split
    · rename_i hmut
      simp only [hat (hi.succ rfl hmut) (show ender .kwSelf = false from rfl)]
    · simp only [hat hi (show ender .kwSelf = false from rfl)]
  have hzero : Inside s 0 := .zero
  unfold receiverWidth
  simp only [← hat hzero (show ender .amp = false from rfl)]
  by_cases hamp : (s.peek 0).kind = .amp
  · have hone : Inside s 1 := hzero.succ rfl hamp
    simp only [if_pos hamp, true_and, ← hat hone (show ender .lifetime = false from rfl)]
    by_cases hlife : (s.peek 1).kind = .lifetime
    · simp only [if_pos hlife]
      exact hname (hone.succ rfl hlife)
    · simp only [if_neg hlife]
      exact hname hone
  · simp only [if_neg hamp, Nat.zero_ne_one, false_and, if_false]
    exact hname hzero

theorem agree_fnParam (hg : Agrees fork g g') :
    Agree fork True 0 n (fnParam g) (fnParam g') := by
  refine .next agree_skipAttributes (.onAny fun a b => .onGet fun s t hst => ?_)
  simp only [hst.receiverWidth_eq]
  refine .ite (fun _ => .next (agree_skip _) ?_) fun _ => ?_
  · refine .optional rfl rfl (agree_typeText hg) fun o o' ho => .pure ?_ fun h => ?_
    · simp_all [Same, bare, Param.bare, Pattern.bare]
    · simp [clear]
  · refine .bind (agree_pattern hg) fun p p' hp => .expect rfl fun _ _ _ _ _ => ?_
    refine .bind (agree_typeText hg) fun o o' ho => .pure ?_ fun h => ⟨⟨trivial, rfl⟩, rfl⟩
    simp_all [Same, bare, Param.bare]

/-- Up to a brace, a semicolon or the end. -/
theorem agree_skipWhere (hn : 0 < n) : Agree fork True 0 n skipWhere skipWhere := by
  refine .accept rfl (.inl rfl) (agree_skipLoop (.onKindWithin hn fun k => ?_)) (agree_pure _)
  split
  case h_4 => exact .next agree_skipAngles (agree_pure _)
  case h_5 => exact .advance fun _ _ _ _ _ => agree_pure _
  all_goals exact agree_pure _

theorem agree_fnParts (hg : Agrees fork g g') (hn : 0 < n) :
    Agree fork True 0 n (fnParts g) (fnParts g') := by
  refine .expect rfl fun _ _ _ i j => .expect rfl fun _ name _ _ _ => ?_
  refine .check (.inl rfl) fun _ => .iteNext agree_skipAngles (.expect rfl fun _ _ _ _ _ => ?_)
  refine .bind (agree_commaList hn (agree_fnParam hg)) fun params params' hparams => ?_
  refine .expect rfl fun _ _ _ _ _ => .optional rfl rfl (agree_typeText hg) fun returns returns' hreturns => ?_
  refine .next (agree_skipWhere hn) (.maybe rfl (.inr hn) fun _ => ?_)
  refine .iteBind (agree_pure none) hg.block.present fun body body' hbody => .pure ?_ fun h => ?_
  · simp_all [Same, bare]
  · exact ⟨⟨⟨trivial, by simp [clear]⟩, by simp [clear]⟩, h⟩

/-! ## Other items -/

theorem agree_visibility : Agree fork True 0 n visibility visibility := by
  refine .accept rfl (.inl rfl) (.check (.inl rfl) fun _ => .ite (fun _ => ?_) fun _ => ?_) (agree_pure _)
  · exact .next agree_skipBalanced (agree_pure _)
  · exact agree_pure _

theorem agree_typeDef_bind [Result α] {keyword : Bytes} {f f' : Item → Parser α} (hn : 0 < n)
    (hf : ∀ name i j, Agree fork K 0 n (f (.typeDef keyword name i)) (f' (.typeDef keyword name j))) :
    Agree fork K 0 n (typeDef keyword >>= f) (typeDef keyword >>= f') := by
  unfold typeDef
  simp only [bind_assoc, pure_bind]
  refine .advance fun _ _ _ i j => .expect rfl fun _ name _ _ _ => .next (J := True) ?_ (hf _ _ _)
  refine agree_skipLoop (.onKindWithin hn fun k => ?_)
  split
  · exact agree_report
  · exact .advance fun _ _ _ _ _ => agree_pure _
  · exact .next agree_skipBalanced (agree_pure _)
  · exact .next agree_skipBalanced (agree_pure _)
  · exact .next agree_skipBalanced (agree_pure _)
  · exact .next agree_skipAngles (agree_pure _)
  · exact .advance fun _ _ _ _ _ => agree_pure _

theorem agree_typeDef (hn : 0 < n) (keyword : Bytes) :
    Agree fork True 0 n (typeDef keyword) (typeDef keyword) := by
  rw [← bind_pure (typeDef keyword)]
  exact agree_typeDef_bind hn fun _ _ _ => .pure rfl fun _ => trivial

theorem agree_checkWord (word : Bytes) : Agree fork True 0 n (checkWord word) (checkWord word) := by
  refine .onCurrent (fun _ _ _ _ _ => agree_pure _) fun a b ha hb => ?_
  rcases ender_cases ha with ha | ha | ha <;> rcases ender_cases hb with hb | hb | hb <;>
    simp only [ha, hb] <;> exact agree_pure _

/-- Nothing behind a report matters. -/
theorem Agree.reported [Result α] {e : SyntaxError} {f : Unit → Parser α} {q : Parser α}
    (hf : Moves (f ())) : Agree fork K c n (report e >>= f) q :=
  .loud ((loud_report _).next fun _ => hf)

theorem agree_foreignItem (hg : Agrees fork g g') (hn : 0 < n) :
    Agree fork True 0 n (foreignItem g) (foreignItem g') := by
  refine .next agree_skipAttributes (.bind agree_visibility fun _ _ _ => ?_)
  refine .maybe rfl (.inl rfl) fun _ => .bind (agree_checkWord _) fun b b' hb => ?_
  obtain rfl : b = b' := hb
  refine Agree.keep (J := True) ?_ fun _ => ⟨⟨trivial, rfl⟩, rfl⟩
  suffices hrest : Agree fork True 0 n _ _ from
    .ite (fun _ => .advance fun _ _ _ _ _ => hrest) fun _ => hrest
  refine .onCurrentWithin hn fun k _ _ i j => ?_
  dsimp only
  split
  · refine .bind (agree_fnParts hg hn) fun fn fn' hfn => ?_
    obtain ⟨name, params, returns, body, pos⟩ := fn
    obtain ⟨name', params', returns', body', pos'⟩ := fn'
    obtain ⟨rfl, -, -, hbody, -⟩ := FnParts.mk.inj hfn
    -- a function that stays has no body
    cases body with
    | none =>
      cases body' with
      | none => exact .pure rfl fun _ => ⟨trivial, rfl⟩
      | some => cases hbody
    | some => exact .loud ((loud_reportAt _ _).next fun _ => .pure _)
  · refine .advance fun _ _ _ _ _ => .maybe rfl (.inl rfl) fun _ => ?_
    refine .expect rfl fun _ _ _ _ _ => .expect rfl fun _ _ _ _ _ => ?_
    refine .bind (agree_typeText hg) fun _ _ _ => ?_
    exact .expect rfl fun _ _ _ _ _ => .pure rfl fun _ => ⟨trivial, rfl⟩
  · exact agree_typeDef_bind hn fun _ _ _ => .pure rfl fun _ => trivial
  · exact .reported (moves_recover.bind fun _ => .pure _)

theorem agree_skipToSemicolon (hn : 0 < n) (overBraces : Bool) :
    Agree fork True 0 n (skipToSemicolon overBraces) (skipToSemicolon overBraces) := by
  refine agree_skipLoop (.onKindWithin hn fun k => ?_)
  split
  · exact agree_pure _
  · exact agree_pure _
  · refine .ite (fun _ => .next agree_skipBalanced (agree_pure _)) fun _ => ?_
    exact .advance fun _ _ _ _ _ => agree_pure _

theorem agree_literalOf {p : Parser Token}
    (hp : ∀ {f : Token → Parser Bytes}, (∀ k l r i j, Agree fork True 0 n (f ⟨k, l, r, i⟩)
      (f ⟨k, l, r, j⟩)) → Agree fork True 0 n (p >>= f) (p >>= f)) :
    Agree fork True 0 n ((·.literal) <$> p) ((·.literal) <$> p) := by
  rw [← bind_pure_comp]
  exact hp fun _ _ _ _ _ => agree_pure _

theorem agree_externItem (hg : Agrees fork g g') (hn : 0 < n) :
    Agree fork True 0 n (externItem g) (externItem g') := by
  refine .expect rfl fun _ _ _ i j => .accept rfl (.inl rfl) ?_ ?_
  · refine .bind (agree_textOf (agree_skipToSemicolon hn false)) fun text text' htext => ?_
    obtain rfl : text = text' := htext
    exact .expect rfl fun _ _ _ _ _ => .pure rfl fun _ => ⟨trivial, rfl⟩
  · refine .check (.inl rfl) fun _ => ?_
    refine .iteBind (agree_literalOf .advance) (agree_pure _) fun abi abi' habi => ?_
    obtain rfl : abi = abi' := habi
    refine .expect rfl fun _ _ _ _ _ => .bind (agree_partsUntil hn (agree_foreignItem hg hn)) ?_
    intro l l' hl
    refine .expect rfl fun _ _ _ _ _ => .pure ?_ fun h => ?_
    · simp_all [Same, bare]
    · simp [clear]

theorem agree_constItem (hg : Agrees fork g g') :
    Agree fork True 0 n (constItem g) (constItem g') := by
  refine .advance fun k _ _ i j => .maybe rfl (.inl rfl) fun _ => ?_
  refine .maybe rfl (.inl rfl) fun _ => ?_
  refine .iteBind (agree_pure _) (agree_literalOf fun h => .expect rfl h) fun name name' hname => ?_
  obtain rfl : name = name' := hname
  refine .optional rfl rfl (agree_typeText hg) fun type type' htype => ?_
  refine .optional rfl rfl hg.expression fun value value' hvalue => ?_
  refine .expect rfl fun _ _ _ _ _ => .pure ?_ fun h => ?_
  · simp_all [Same, bare]
  · simp_all [clear]

theorem agree_items (hg : Agrees fork g g') (hn : 0 < n) (closer : Token.Kind) :
    Agree fork True 0 n (items g closer) (items g' closer) :=
  agree_partsUntil hn (hg.item hn)

theorem agree_moduleItem (hg : Agrees fork g g') (hn : 0 < n) :
    Agree fork True 0 n (moduleItem g) (moduleItem g') := by
  refine .expect rfl fun _ _ _ i j => .expect rfl fun _ name _ _ _ => ?_
  refine .accept rfl (.inr hn) (.pure rfl fun _ => trivial) ?_
  refine .expect rfl fun _ _ _ _ _ => .bind (agree_items hg hn _) fun l l' hl => ?_
  refine .expect rfl fun _ _ _ _ _ => .pure ?_ fun h => ?_
  · simp_all [Same, bare]
  · simp_all [clear]

theorem agree_useItem (hn : 0 < n) : Agree fork True 0 n useItem useItem := by
  refine .expect rfl fun _ _ _ i j => ?_
  refine .bind (agree_textOf (agree_skipToSemicolon hn true)) fun text text' htext => ?_
  obtain rfl : text = text' := htext
  exact .expect rfl fun _ _ _ _ _ => .pure rfl fun _ => ⟨trivial, rfl⟩

theorem agree_implItem (hg : Agrees fork g g') (hn : 0 < n) :
    Agree fork True 0 n (implItem g) (implItem g') := by
  refine .expect rfl fun _ _ _ i j => ?_
  refine .check (.inl rfl) fun _ => .iteNext agree_skipAngles ?_
  refine .maybe rfl (.inl rfl) fun _ => .bind (agree_typeText hg) fun first first' hfirst => ?_
  refine .optional rfl rfl (agree_typeText hg) fun second second' hsecond => ?_
  refine .next (agree_skipWhere hn) (.expect rfl fun _ _ _ _ _ => ?_)
  refine .bind (agree_items hg hn _) fun l l' hl => .expect rfl fun _ _ _ _ _ => ?_
  have htext : first.text = first'.text := (TypeText.mk.inj hfirst).1
  cases second with
  | none =>
    cases second' with
    | none =>
      refine .pure ?_ fun h => ?_
      · simp_all [Same, bare]
      · simp_all [clear]
    | some => cases hsecond
  | some type =>
    cases second' with
    | none => cases hsecond
    | some type' =>
      have htype : type.text = type'.text := 
        (TypeText.mk.inj (Option.some.inj hsecond)).1
      refine .pure ?_ fun h => ?_
      · simp_all [Same, bare]
      · simp_all [clear]

theorem agree_macroItem (hn : 0 < n) : Agree fork True 1 n macroItem macroItem := by
  refine .advance fun _ word _ i j => .expect rfl fun _ _ _ _ _ => ?_
  refine .check (.inl rfl) fun _ => ?_
  refine .iteBind (agree_literalOf .advance) (agree_pure _) fun name name' hname => ?_
  obtain rfl : name = name' := hname
  have hdone : Agree fork (True ∧ clear name = true) 0 n
      (pure (Item.typeDef "macro" name i)) (pure (.typeDef "macro" name j)) :=
    .pure rfl fun _ => ⟨trivial, rfl⟩
  refine .onKindWithin hn fun k => .ite (fun _ => .next agree_skipBalanced ?_) fun _ => ?_
  · refine .ite (fun _ => .maybe rfl (.inr hn) fun _ => hdone) fun _ => ?_
    exact .expect rfl fun _ _ _ _ _ => hdone
  · exact .onAny fun _ _ => agree_report

theorem agree_qualifiers : Agree fork True 0 n qualifiers qualifiers := by
  refine (agree_loop (fun abi abi' habi => ?_) (.refl [])).keep fun _ => trivial
  obtain rfl : abi = abi' := habi
  refine .onGet fun s t hst => ?_
  have hat {i : Nat} {k : Token.Kind} (hi : Inside s i) (hk : ender k = false) :
      (s.peek i).kind = k ↔ (t.peek i).kind = k := (hst.peek i hi).kind_iff hk
  rcases hst.current with hw | ⟨hs, ht⟩
  · simp only [Token.word, Prod.mk.injEq] at hw
    have hone {k : Token.Kind} (hs : s.current.kind = k) (hk : ender k = false) : Inside s 1 :=
      Inside.succ .zero hk (by rw [s.peek_zero, hs])
    dsimp only
    rw [← hw.1, ← hw.2.1]
    split
    case h_1 => exact .advance fun _ _ _ _ _ => .pure rfl id
    case h_2 =>
      refine .ite (fun _ => .advance fun _ _ _ _ _ => ?_) fun _ => ?_ <;> exact .pure rfl id
    case h_3 hs =>
      have hs := hone hs rfl
      simp only [hat hs (show ender .kwFn = false from rfl),
        hat hs (show ender .kwUnsafe = false from rfl)]
      refine .ite (fun _ => .advance fun _ _ _ _ _ => ?_) fun _ => ?_ <;> exact .pure rfl id
    case h_4 hs =>
      have hs := hone hs rfl
      have hblock : (s.peek 1).kind = .stringLit ∧ (s.peek 2).kind = .braceOpen ↔
          (t.peek 1).kind = .stringLit ∧ (t.peek 2).kind = .braceOpen := by
        rw [← hat hs (show ender .stringLit = false from rfl)]
        exact and_congr_right fun h => hat (hs.succ rfl h) rfl
      simp only [hat hs (show ender .braceOpen = false from rfl),
        hat hs (show ender .kwCrate = false from rfl), hblock]
      refine .ite (fun _ => .pure rfl id) fun _ => .advance fun _ _ _ _ _ => ?_
      refine .check (.inl rfl) fun _ => .ite (fun _ => ?_) fun _ => .pure rfl id
      exact .advance fun _ _ _ _ _ => .pure rfl id
    case h_5 => exact .pure rfl id
  · rcases ender_cases hs with hs | hs | hs <;> rcases ender_cases ht with ht | ht | ht <;>
      simp only [hs, ht] <;> exact .pure rfl id

theorem agree_noItem {a : Token} {q : Parser (Option Item)} : Agree fork K c n (noItem a) q :=
  .reported (moves_recover.bind fun _ => .pure _)

theorem agree_item (hg : Agrees fork g g') (hn : 0 < n) :
    Agree fork True 0 n (item g) (item g') := by
  refine .next agree_skipAttributes (.check (.inl rfl) fun _ => .check (.inl rfl) fun _ => ?_)
  refine .ite (fun _ => agree_pure _) fun _ => .bind agree_visibility fun isPublic b hb => ?_
  obtain rfl : isPublic = b := hb
  refine .bind agree_qualifiers fun abi abi' habi => ?_
  obtain rfl : abi = abi' := habi
  refine Agree.keep (J := True) (.onCurrentWithin hn fun k l r i j => ?_) fun _ =>
    ⟨⟨trivial, rfl⟩, rfl⟩
  dsimp only
  split
  case h_1 =>
    refine .bind (agree_fnParts hg hn) fun fn fn' hfn => ?_
    obtain ⟨name, params, returns, body, pos⟩ := fn
    obtain ⟨name', params', returns', body', pos'⟩ := fn'
    obtain ⟨rfl, hparams, hreturns, hbody, -⟩ := FnParts.mk.inj hfn
    refine .pure ?_ fun h => ?_
    · simp_all [Same, bare]
    · simp_all [clear]
  case h_2 => exact (agree_externItem hg hn).present
  case h_3 | h_4 => exact (agree_constItem hg).present
  case h_5 => exact (agree_moduleItem hg hn).present
  case h_6 => exact (agree_useItem hn).present
  case h_7 => exact (agree_implItem hg hn).present
  case h_12 =>
    refine .ite (fun _ => (agree_typeDef hn _).present) fun _ => ?_
    refine .fewer (m := 1) (.onGet fun s t hst => ?_) (Nat.zero_le 1)
    have hnext : (s.peek 1).kind = (t.peek 1).kind := congrArg Prod.fst (hst.common 1 (by omega))
    rw [hnext]
    exact .ite (fun _ => (agree_macroItem hn).present) fun _ => agree_noItem
  case h_13 => exact agree_noItem
  all_goals exact (agree_typeDef hn _).present

/-! ## Statements -/

theorem agree_startsItem : Agree fork True 0 n startsItem startsItem := by
  refine .onGet fun s t hst => ?_
  rcases hst.current with hw | ⟨hs, ht⟩
  · simp only [Token.word, Prod.mk.injEq] at hw
    have hat {k k' : Token.Kind} (hs : s.current.kind = k') (hk' : ender k' = false)
        (hk : ender k = false) : (s.peek 1).kind = k ↔ (t.peek 1).kind = k :=
      (hst.second (hs ▸ hk')).kind_iff hk
    dsimp only
    rw [← hw.1, ← hw.2.1]
    split
    case h_12 hs =>
      simp only [hat hs rfl (show ender .ident = false from rfl),
        hat hs rfl (show ender .underscore = false from rfl),
        hat hs rfl (show ender .kwFn = false from rfl),
        hat hs rfl (show ender .kwUnsafe = false from rfl)]
      exact agree_pure _
    case h_13 hs =>
      simp only [hat hs rfl (show ender .kwFn = false from rfl),
        hat hs rfl (show ender .kwImpl = false from rfl),
        hat hs rfl (show ender .kwTrait = false from rfl),
        hat hs rfl (show ender .kwExtern = false from rfl)]
      exact agree_pure _
    case h_14 hs =>
      simp only [hat hs rfl (show ender .bang = false from rfl),
        hat hs rfl (show ender .kwFn = false from rfl),
        hat hs rfl (show ender .ident = false from rfl)]
      exact agree_pure _
    all_goals exact agree_pure _
  · rcases ender_cases hs with hs | hs | hs <;> rcases ender_cases ht with ht | ht | ht <;>
      simp only [hs, ht] <;> exact agree_pure _

/-- Does an expression that ends in a block stand next? -/
def State.isBlockLike (s : State) : Bool :=
  match s.current.kind with
  | .kwIf | .kwWhile | .kwLoop | .kwFor | .kwMatch | .braceOpen => true
  | .kwUnsafe => (s.peek 1).kind = .braceOpen
  | .lifetime => (s.peek 1).kind = .colon
  | _ => false

theorem startsBlockLike_eq (s : State) : startsBlockLike s = some (s.isBlockLike, s) := by
  rw [startsBlockLike, currentKind_bind, State.isBlockLike]
  cases s.current.kind <;> rfl

theorem Sight.isBlockLike_eq (h : Sight room s t) : s.isBlockLike = t.isBlockLike := by
  unfold State.isBlockLike
  rcases h.current with hw | ⟨hs, ht⟩
  · rw [← show s.current.kind = t.current.kind from congrArg Prod.fst hw]
    split
    case h_7 hs =>
      simp only [(h.second (hs ▸ rfl)).kind_iff (show ender .braceOpen = false from rfl)]
    case h_8 hs =>
      simp only [(h.second (hs ▸ rfl)).kind_iff (show ender .colon = false from rfl)]
    all_goals rfl
  · rcases ender_cases hs with hs | hs | hs <;> rcases ender_cases ht with ht | ht | ht <;>
      rw [hs, ht]

theorem agree_startsBlockLike : Agree fork True 0 n startsBlockLike startsBlockLike :=
  agree_look State.isBlockLike startsBlockLike_eq fun _ _ h => h.isBlockLike_eq

theorem isMacroCall_bare (e : Expr) : isMacroCall e.bare = isMacroCall e := by
  cases e <;> rfl

theorem agree_finishStmt {e e' : Expr} (he : Same e e') (hn : 0 < n) :
    Agree fork (clear e = true) 0 n (finishStmt e) (finishStmt e') := by
  have hstmt (semi : Bool) : Agree fork (clear e = true) 0 n
      (pure (Stmt.expr e semi)) (pure (.expr e' semi)) :=
    .pure (congrArg (Stmt.expr · semi) he) id
  have hcall : isMacroCall e = isMacroCall e' := by
    rw [← isMacroCall_bare, ← isMacroCall_bare e', show e.bare = e'.bare from he]
  refine .accept rfl (.inr hn) (hstmt true) (.check (.inl rfl) fun _ => ?_)
  refine .ite (fun _ => hstmt false) fun _ => .onGet fun s t hst => ?_
  rw [hcall]
  simp only [hst.previous]
  refine .ite (fun _ => hstmt true) fun _ => .onAny fun _ _ => ?_
  exact .reported (moves_recover.bind fun _ => .pure _)

theorem agree_binding (hg : Agrees fork g g') : Agree fork True 0 n (binding g) (binding g') := by
  refine .expect rfl fun _ _ _ i j => .bind (agree_topPattern hg) fun p p' hp => ?_
  refine .optional rfl rfl (agree_typeText hg) fun type type' htype => ?_
  refine .optional rfl rfl hg.expression fun init init' hinit => ?_
  refine .optional rfl rfl hg.block fun otherwise otherwise' hotherwise => ?_
  refine .expect rfl fun _ _ _ _ _ => .pure ?_ fun h => ?_
  · simp_all [Same, bare, Stmt.bare]
  · simp_all [clear, Stmt.clear]

theorem agree_blockLikeStmt (hg : Agrees fork g g') (hn : 0 < n) :
    Agree fork True 0 n (blockLikeStmt g) (blockLikeStmt g') := by
  refine .bind (agree_blockLike hg) fun e e' he => .check (.inl rfl) fun _ => .check (.inl rfl) fun _ => ?_
  refine .ite (fun _ => ?_) fun _ => ?_
  · -- each operand is a part of what follows
    refine .bindKeep (L := True) (agree_postfixOps hg he) (fun e e' he => ?_) fun h _ => ⟨trivial, h⟩
    refine .bindKeep (L := True) (agree_binaryRest hg _ he) (fun e e' he => ?_)
      fun h _ => ⟨trivial, h⟩
    refine .bindKeep (L := True) (agree_assignRest hg he) (fun e e' he => ?_) fun h _ => ⟨trivial, h⟩
    exact (agree_finishStmt he hn).keep fun h => ⟨trivial, h⟩
  · refine .maybe rfl (.inr hn) fun semi => ?_
    exact .pure (congrArg (Stmt.expr · semi) he) fun h => ⟨trivial, h⟩

theorem agree_stmt (hg : Agrees fork g g') (hn : 0 < n) :
    Agree fork True 0 n (stmt g) (stmt g') := by
  refine .next agree_skipAttributes (.accept rfl (.inr hn) (agree_pure _) ?_)
  refine .check (.inl rfl) fun _ => .ite (fun _ => agree_pure _) fun _ => ?_
  refine .check (.inl rfl) fun _ => .ite (fun _ => (agree_binding hg).present) fun _ => ?_
  refine .bind agree_startsItem fun b b' hb => ?_
  obtain rfl : b = b' := hb
  refine Agree.keep (J := True) (.ite (fun _ => ?_) fun _ => ?_) fun _ => ⟨trivial, rfl⟩
  · refine .bind (hg.item hn) fun o o' ho => ?_
    cases o with
    | none =>
      cases o' with
      | none => exact .pure rfl fun _ => ⟨trivial, rfl⟩
      | some => cases ho
    | some i =>
      cases o' with
      | none => cases ho
      | some i' =>
        refine .pure ?_ fun h => ⟨trivial, h⟩
        exact congrArg (fun i => some (Stmt.item i)) (Option.some.inj ho)
  · refine .bind agree_startsBlockLike fun b b' hb => ?_
    obtain rfl : b = b' := hb
    refine Agree.keep (J := True) (.ite (fun _ => ?_) fun _ => ?_) fun _ => ⟨trivial, rfl⟩
    · exact (agree_blockLikeStmt hg hn).present
    · refine .bind hg.expression fun e e' he => ?_
      exact (agree_finishStmt he hn).present.keep fun h => ⟨trivial, h⟩

theorem agree_block (hg : Agrees fork g g') : Agree fork True 0 n (block g) (block g') := by
  refine Agree.withNoStruct ?_ false
  refine .expect rfl fun _ _ _ _ _ => .fewer (m := 1) ?_ (Nat.zero_le 1)
  refine .bind (agree_partsUntil (Nat.succ_pos _) (agree_stmt hg (Nat.succ_pos _))) fun l l' hl => ?_
  refine .expect rfl fun _ _ _ _ _ => .pure ?_ fun h => ?_
  · simp_all [Same, bare, Block.bare]
  · simp_all [clear, Block.clear]

/-! ## The knot -/

theorem Agree.exhausted [Result α] {p q : Parser α} (h : Agree fork K c n p q) :
    Agree fork K c n p Alternative.failure := by
  intro s a u hr
  obtain ⟨hm, hq⟩ := h s a u hr
  refine ⟨hm, fun hb => ?_⟩
  obtain ⟨hl, hk, -⟩ := hq hb
  exact ⟨hl, hk, fun _ _ t b v _ hv => by cases hv⟩

/-- Grammars of any two depths agree: what one of them does not answer is not compared. -/
theorem agrees_grammar (depth depth' : Nat) : Agrees fork (grammar depth) (grammar depth') := by
  induction depth generalizing depth' with
  | zero =>
    exact ⟨.failure, fun _ => .failure, .failure, .failure, .failure, .failure, fun _ => .failure,
      .failure, .failure, sound_zero depth'⟩
  | succ depth ih =>
    cases depth' with
    | zero =>
      have hg := ih 0
      exact ⟨(agree_expression hg).exhausted, fun level => (agree_precedence hg level).exhausted,
        (agree_unary hg).exhausted, (agree_primary hg).exhausted, (agree_ifElse hg).exhausted,
        (agree_block hg).exhausted, fun hn => (agree_item hg hn).exhausted,
        (agree_pattern hg).exhausted, (agree_skipType hg).exhausted, sound_zero 0⟩
    | succ depth' =>
      have hg := ih depth'
      exact ⟨agree_expression hg, agree_precedence hg, agree_unary hg, agree_primary hg,
        agree_ifElse hg, agree_block hg, agree_item hg, agree_pattern hg, agree_skipType hg,
        sound_zero (depth' + 1)⟩

end RustLua.Parser
