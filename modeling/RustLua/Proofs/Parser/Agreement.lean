import RustLua.Proofs.Parser.Speculation
import RustLua.Proofs.Tree.Bare

/-! # Two runs over the same words

Two token lists have the same words up to a point and go on differently behind it: with a
semicolon here, with a closing parenthesis there. A parser that stops at that point in
the first list should have read the same in the second. `Agree` says so of two parsers,
the productions over two grammars of different depth. It is about pairs of runs that both
give a result, so that no bound on the depth enters.

The first run must not read into what differs; how far it stays away from that is counted
(`n`), and so is what a parser is sure to take (`c`), since whoever must leave room for a
closing token sees only words that both lists have. Nor may it meet a macro call whose
arguments cannot be read: the trial may have failed behind the point. -/
namespace RustLua

variable {k : Token.Kind}

/-- What a token says, wherever it stands. -/
def Token.word (t : Token) : Token.Kind × Bytes × Bytes := (t.kind, t.literal, t.raw)

namespace Parser

open RustLua.Tree

variable {α β σ : Type}

/-! ## Results -/

/-- What parsers give: trees, parts of trees and plain values. -/
class Result (α : Type) where
  bare : α → α
  clear : α → Bool

open Result

/-- Values without positions and without macro calls. -/
abbrev Result.plain : Result α := ⟨id, fun _ => true⟩

instance : Result Unit := .plain
instance : Result Bool := .plain
instance : Result Token.Kind := .plain
instance : Result Bytes := .plain
instance : Result TypeText := ⟨TypeText.bare, fun _ => true⟩
instance : Result Literal := ⟨Literal.bare, fun _ => true⟩
instance : Result ForeignItem := ⟨ForeignItem.bare, fun _ => true⟩
instance : Result Pattern := ⟨Pattern.bare, fun _ => true⟩
instance : Result Param := ⟨Param.bare, fun _ => true⟩
instance : Result Expr := ⟨Expr.bare, Expr.clear⟩
instance : Result Arm := ⟨Arm.bare, Arm.clear⟩
instance : Result FieldInit := ⟨FieldInit.bare, FieldInit.clear⟩
instance : Result Block := ⟨Block.bare, Block.clear⟩
instance : Result Stmt := ⟨Stmt.bare, Stmt.clear⟩
instance : Result Item := ⟨Item.bare, Item.clear⟩

instance [Result α] : Result (Option α) := ⟨Option.map bare, fun o => o.all clear⟩
instance [Result α] : Result (List α) := ⟨List.map bare, fun l => l.all clear⟩
instance [Result α] [Result β] : Result (α × β) :=
  ⟨fun x => (bare x.1, bare x.2), fun x => clear x.1 && clear x.2⟩

instance : Result (List Bytes) := .plain
instance : Result (Option Bool) := .plain

def Step.bare [Result σ] [Result β] : Step σ β → Step σ β
  | .more x => .more (Result.bare x)
  | .done b => .done (Result.bare b)

def Step.clear [Result σ] [Result β] : Step σ β → Bool
  | .more x => Result.clear x
  | .done b => Result.clear b

instance [Result σ] [Result β] : Result (Step σ β) := ⟨Step.bare, Step.clear⟩

/-- Results that differ in positions only. -/
def Same [Result α] (a b : α) : Prop := bare a = bare b

theorem Same.refl [Result α] (a : α) : Same a a := rfl

theorem same_more [Result σ] [Result β] {x y : σ} :
    Same (.more x : Step σ β) (.more y) ↔ Same x y :=
  ⟨fun h => Step.more.inj h, fun h => congrArg Step.more h⟩

theorem same_done [Result σ] [Result β] {x y : β} :
    Same (.done x : Step σ β) (.done y) ↔ Same x y :=
  ⟨fun h => Step.done.inj h, fun h => congrArg Step.done h⟩

theorem Same.concat [Result α] {l l' : List α} {a a' : α} (h : Same l l') (ha : Same a a') :
    Same (l ++ [a]) (l' ++ [a']) := by
  change (l ++ [a]).map bare = (l' ++ [a']).map bare
  rw [List.map_append, List.map_append, show l.map bare = l'.map bare from h]
  exact congrArg (fun b => l'.map bare ++ [b]) ha

theorem clear_concat [Result α] {l : List α} {a : α} (h : clear (l ++ [a]) = true) :
    clear l = true ∧ clear a = true := by
  change (l ++ [a]).all clear = true at h
  rw [List.all_append, Bool.and_eq_true] at h
  exact ⟨h.1, by simpa using h.2⟩

/-! ## States -/

/-- The tokens behind an expression: a statement or a parenthesis ends, or a comma follows. -/
def ender : Token.Kind → Bool
  | .semicolon | .parenClose | .comma => true
  | _ => false

/-- How two token lists go on behind their common words. -/
structure Fork where
  left : List Token
  right : List Token
  ender_left : ender (left.headD beyond).kind = true
  ender_right : ender (right.headD beyond).kind = true

/-- Two states with the same words ahead of them, up to the ends. -/
structure Alike (fork : Fork) (s t : State) : Prop where
  ahead : ∃ x y, s.ahead = x ++ fork.left ∧ t.ahead = y ++ fork.right ∧
    x.map Token.word = y.map Token.word
  noStruct : s.noStruct = t.noStruct
  previous : s.previous = .braceClose ↔ t.previous = .braceClose

variable {fork : Fork} {K : Prop} {c n : Nat} {s t : State}

/-- Both states have taken a token of this kind. -/
abbrev State.took (s : State) (k : Token.Kind) (rest : List Token) : State :=
  { s with ahead := rest, previous := k }

/-- The next token is the same in both states, or both are at their ends. -/
theorem Alike.next (h : Alike fork s t) :
    (∃ k l r i j x y, s.ahead = ⟨k, l, r, i⟩ :: x ∧ t.ahead = ⟨k, l, r, j⟩ :: y ∧
      Alike fork (s.took k x) (t.took k y)) ∨ s.ahead = fork.left ∧ t.ahead = fork.right := by
  obtain ⟨x, y, hx, hy, hw⟩ := h.ahead
  rcases x with - | ⟨⟨k, l, r, i⟩, x⟩ <;> rcases y with - | ⟨⟨k', l', r', j⟩, y⟩
  · exact .inr ⟨hx, hy⟩
  · cases hw
  · cases hw
  · simp only [List.map_cons, Token.word, List.cons.injEq, Prod.mk.injEq] at hw
    obtain ⟨⟨rfl, rfl, rfl⟩, hw⟩ := hw
    exact .inl ⟨k, l, r, i, j, x ++ fork.left, y ++ fork.right, hx, hy,
      ⟨x, y, rfl, rfl, hw⟩, h.noStruct, Iff.rfl⟩

theorem ender_ne_eof (h : ender k = true) : k ≠ .eof := by
  rintro rfl
  cases h

theorem ender_cases (h : ender k = true) :
    k = .semicolon ∨ k = .parenClose ∨ k = .comma := by
  unfold ender at h
  split at h
  · exact .inl rfl
  · exact .inr (.inl rfl)
  · exact .inr (.inr rfl)
  · cases h

theorem Fork.left_pos (fork : Fork) : 0 < fork.left.length := by
  have h := fork.ender_left
  cases hl : fork.left with
  | nil => rw [hl] at h; cases h
  | cons => simp

/-- As much is missing in one state as in the other. -/
theorem Alike.length_eq_iff {u v : State} (h : Alike fork s t) (h' : Alike fork u v) :
    u.ahead.length = s.ahead.length ↔ v.ahead.length = t.ahead.length := by
  obtain ⟨x, y, hx, hy, hw⟩ := h.ahead
  obtain ⟨x', y', hx', hy', hw'⟩ := h'.ahead
  have hl := congrArg List.length hw
  have hl' := congrArg List.length hw'
  simp only [List.length_map] at hl hl'
  simp only [hx, hy, hx', hy', List.length_append]
  omega

/-! ## Agreement -/

/-- Every run of `p` moves forward. A quiet one takes at least `c` tokens, and its result
is clear only if `K` holds. If it also leaves `n` of the common tokens and has a clear
result, then `q` is quiet on the same words, gives the same result and leaves the same. -/
def Agree [Result α] (fork : Fork) (K : Prop) (c n : Nat) (p q : Parser α) : Prop :=
  ∀ s a u, p s = some (a, u) → Moved s u ∧ (u.bag = s.bag →
    u.ahead.length + c ≤ s.ahead.length ∧ (clear a = true → K) ∧
    (fork.left.length + n ≤ u.ahead.length → clear a = true →
      ∀ t b v, Alike fork s t → q t = some (b, v) →
        v.bag = t.bag ∧ Same a b ∧ Alike fork u v))

theorem Agree.pure [Result α] {a b : α} (h : Same a b) (hk : clear a = true → K) :
    Agree fork K 0 n (pure a) (pure b) := by
  intro s a' u hr
  cases hr
  refine ⟨.refl s, fun _ => ⟨Nat.le_refl _, hk, fun _ _ t b' v ht hv => ?_⟩⟩
  cases hv
  exact ⟨rfl, h, ht⟩

theorem agree_pure [Result α] (a : α) : Agree fork True 0 n (pure a) (pure a) :=
  .pure rfl fun _ => trivial

/-- What is kept in view may be less. -/
theorem Agree.keep [Result α] {p q : Parser α} {J : Prop} (h : Agree fork J c n p q)
    (hk : J → K) : Agree fork K c n p q := by
  intro s a u hr
  obtain ⟨hm, hq⟩ := h s a u hr
  refine ⟨hm, fun hb => ?_⟩
  obtain ⟨hl, hc, ha⟩ := hq hb
  exact ⟨hl, fun h => hk (hc h), ha⟩

theorem Agree.fewer [Result α] {p q : Parser α} {m : Nat} (h : Agree fork K m n p q)
    (hc : c ≤ m) : Agree fork K c n p q := by
  intro s a u hr
  obtain ⟨hm, hq⟩ := h s a u hr
  refine ⟨hm, fun hb => ?_⟩
  obtain ⟨hl, hrest⟩ := hq hb
  exact ⟨by omega, hrest⟩

/-- Nothing is to be shown of a run that reports. -/
theorem Agree.loud [Result α] {p q : Parser α} (h : Loud p) : Agree fork K c n p q := by
  intro s a u hr
  obtain ⟨hm, hne⟩ := h s a u hr
  exact ⟨hm, fun hb => (hne hb).elim⟩

theorem Agree.failure [Result α] {q : Parser α} : Agree fork K c n failure q := by
  intro s a u hr
  cases hr

/-- The second parser leaves room for what the first one must leave, and what is kept in
view may come from either. -/
theorem Agree.bindKeep [Result α] [Result β] {p q : Parser α} {f f' : α → Parser β} {J L : Prop}
    (hp : Agree fork J 0 (n + c) p q)
    (hf : ∀ a b, Same a b → Agree fork (L ∧ clear a = true) c n (f a) (f' b)) (hk : J → L → K) :
    Agree fork K c n (p >>= f) (q >>= f') := by
  intro s a u hr
  obtain ⟨⟨a₀, w⟩, hpr, hfr⟩ := Option.bind_eq_some_iff.mp hr
  obtain ⟨hsw, hp'⟩ := hp s a₀ w hpr
  obtain ⟨hwu, hf'⟩ := hf a₀ a₀ (.refl _) w a u hfr
  refine ⟨hsw.trans hwu, fun hb => ?_⟩
  obtain ⟨hbw, hbu⟩ := hsw.quiet hwu hb
  obtain ⟨hl, hj, ha⟩ := hp' hbw
  obtain ⟨hl', hlast, -⟩ := hf' hbu
  refine ⟨by omega, fun hc => hk (hj (hlast hc).2) (hlast hc).1, fun hn hc t b v hst hv => ?_⟩
  obtain ⟨⟨b₀, w'⟩, hqr, hfr'⟩ := Option.bind_eq_some_iff.mp hv
  obtain ⟨hbw', hsame, hww⟩ := ha (by omega) (hlast hc).2 t b₀ w' hst hqr
  obtain ⟨-, -, ha'⟩ := ((hf a₀ b₀ hsame) w a u hfr).2 hbu
  obtain ⟨hbv, hab, huv⟩ := ha' hn hc w' b v hww hfr'
  exact ⟨hbv.trans hbw', hab, huv⟩

theorem Agree.bind [Result α] [Result β] {p q : Parser α} {f f' : α → Parser β} {J : Prop}
    (hp : Agree fork J 0 (n + c) p q)
    (hf : ∀ a b, Same a b → Agree fork (K ∧ clear a = true) c n (f a) (f' b)) :
    Agree fork K c n (p >>= f) (q >>= f') :=
  .bindKeep hp hf fun _ hk => hk

theorem Agree.map [Result α] [Result β] {p q : Parser α} {f f' : α → β}
    (hp : Agree fork K c n p q) (hf : ∀ a b, Same a b → Same (f a) (f' b))
    (hc : ∀ a, clear (f a) = true → clear a = true) :
    Agree fork K c n (f <$> p) (f' <$> q) := by
  rw [← bind_pure_comp, ← bind_pure_comp]
  intro s a u hr
  obtain ⟨⟨a₀, w⟩, hpr, he⟩ := Option.bind_eq_some_iff.mp hr
  cases he
  obtain ⟨hm, hq⟩ := hp s a₀ u hpr
  refine ⟨hm, fun hb => ?_⟩
  obtain ⟨hl, hk, ha⟩ := hq hb
  refine ⟨hl, fun h => hk (hc a₀ h), fun hn h t b v hst hv => ?_⟩
  obtain ⟨⟨b₀, w'⟩, hqr, he⟩ := Option.bind_eq_some_iff.mp hv
  cases he
  obtain ⟨hbv, hab, huv⟩ := ha hn (hc a₀ h) t b₀ v hst hqr
  exact ⟨hbv, hf a₀ b₀ hab, huv⟩

theorem Agree.present [Result α] {p q : Parser α} (hp : Agree fork K c n p q) :
    Agree fork K c n (some <$> p) (some <$> q) :=
  hp.map (fun _ _ h => congrArg some h) fun _ h => h

theorem Agree.ite [Result α] {b : Prop} [Decidable b] {p p' q q' : Parser α}
    (hp : b → Agree fork K c n p p') (hq : ¬b → Agree fork K c n q q') :
    Agree fork K c n (if b then p else q) (if b then p' else q') := by
  by_cases hb : b
  · rw [if_pos hb, if_pos hb]; exact hp hb
  · rw [if_neg hb, if_neg hb]; exact hq hb

/-- Two ways to what the rest goes on with. -/
theorem Agree.iteBind [Result α] [Result β] {b : Prop} [Decidable b] {p p' q q' : Parser α}
    {f f' : α → Parser β} {J L : Prop} (hp : Agree fork J 0 (n + c) p p')
    (hq : Agree fork L 0 (n + c) q q')
    (hf : ∀ a a', Same a a' → Agree fork (K ∧ clear a = true) c n (f a) (f' a')) :
    Agree fork K c n (if b then p >>= f else q >>= f) (if b then p' >>= f' else q' >>= f') :=
  .ite (fun _ => .bind hp hf) fun _ => .bind hq hf

theorem Agree.withNoStruct [Result α] {p q : Parser α} (h : Agree fork K c n p q) (flag : Bool) :
    Agree fork K c n (withNoStruct flag p) (withNoStruct flag q) := by
  intro s a u hr
  obtain ⟨⟨a, u'⟩, hpr, he⟩ := Option.bind_eq_some_iff.mp
    (show (p { s with noStruct := flag }).bind _ = _ from hr)
  cases he
  obtain ⟨hm, hq⟩ := h _ _ _ hpr
  refine ⟨⟨hm.ahead, hm.reports, rfl⟩, fun hb => ?_⟩
  obtain ⟨hl, hk, ha⟩ := hq hb
  refine ⟨hl, hk, fun hn hc t b v hst hv => ?_⟩
  obtain ⟨⟨b, v'⟩, hqr, he⟩ := Option.bind_eq_some_iff.mp
    (show (q { t with noStruct := flag }).bind _ = _ from hv)
  cases he
  have hflag : Alike fork { s with noStruct := flag } { t with noStruct := flag } :=
    ⟨hst.ahead, rfl, hst.previous⟩
  obtain ⟨hb', hab, huv⟩ := ha hn hc _ b v' hflag hqr
  exact ⟨hb', hab, huv.ahead, hst.noStruct, huv.previous⟩

/-! ## Looking -/

/-- Two tokens are seen as one: they say the same, or both may stand at the end. -/
def Token.Matches (a b : Token) : Prop :=
  a.word = b.word ∨ ender a.kind = true ∧ ender b.kind = true

theorem Token.Matches.kind_iff {a b : Token} (h : Token.Matches a b)
    (hk : ender k = false) : a.kind = k ↔ b.kind = k := by
  rcases h with hw | ⟨ha, hb⟩
  · rw [show a.kind = b.kind from congrArg Prod.fst hw]
  · constructor
    · rintro rfl
      rw [ha] at hk
      cases hk
    · rintro rfl
      rw [hb] at hk
      cases hk

/-- What two states show alike: `room` tokens, then all up to the first one that may stand
at the end. -/
structure Sight (room : Nat) (s t : State) : Prop where
  common : ∀ i < room, (s.peek i).word = (t.peek i).word
  peek : ∀ i, (∀ j < i, ender (s.peek j).kind = false) → Token.Matches (s.peek i) (t.peek i)
  noStruct : s.noStruct = t.noStruct
  previous : s.previous = .braceClose ↔ t.previous = .braceClose

variable {room : Nat}

theorem Sight.refl (s : State) : Sight room s s :=
  ⟨fun _ _ => rfl, fun _ _ => .inl rfl, rfl, .rfl⟩

theorem Alike.sight (h : Alike fork s t) (hroom : fork.left.length + room ≤ s.ahead.length) :
    Sight room s t := by
  obtain ⟨x, y, hx, hy, hw⟩ := h.ahead
  have hxy : x.length = y.length := by simpa using congrArg List.length hw
  have hcommon (i : Nat) (hlt : i < x.length) : (s.peek i).word = (t.peek i).word := by
    have hlt' : i < y.length := hxy ▸ hlt
    have hwi : (x.map Token.word)[i]? = (y.map Token.word)[i]? := by rw [hw]
    simpa [State.peek, hx, hy, List.getElem?_append_left, hlt, hlt'] using hwi
  have hleft : s.peek x.length = fork.left.headD beyond := by
    simp [State.peek, hx, List.headD_eq_head?_getD, List.head?_eq_getElem?,
      List.getElem?_append_right]
  have hright : t.peek x.length = fork.right.headD beyond := by
    simp [State.peek, hy, hxy, List.headD_eq_head?_getD, List.head?_eq_getElem?,
      List.getElem?_append_right]
  rw [hx, List.length_append] at hroom
  refine ⟨fun i hi => hcommon i (by omega), fun i hi => ?_, h.noStruct, h.previous⟩
  rcases Nat.lt_trichotomy i x.length with hlt | rfl | hgt
  · exact .inl (hcommon i hlt)
  · rw [hleft, hright]
    exact .inr ⟨fork.ender_left, fork.ender_right⟩
  · have hend := hi _ hgt
    rw [hleft, fork.ender_left] at hend
    cases hend

theorem Sight.current (h : Sight room s t) : Token.Matches s.current t.current := by
  rw [← s.peek_zero, ← t.peek_zero]
  exact h.peek 0 fun _ hj => absurd hj (Nat.not_lt_zero _)

theorem Sight.current_word (h : Sight room s t) (hpos : 0 < room) :
    s.current.word = t.current.word := by
  rw [← s.peek_zero, ← t.peek_zero]
  exact h.common 0 hpos

/-- The token behind the next one. -/
theorem Sight.second (h : Sight room s t) (hs : ender s.current.kind = false) :
    Token.Matches (s.peek 1) (t.peek 1) := by
  refine h.peek 1 fun j hj => ?_
  obtain rfl : j = 0 := by omega
  rw [s.peek_zero]
  exact hs

/-- All that is decided on what is seen. -/
theorem Agree.onGet [Result α] {f f' : State → Parser α}
    (h : ∀ s t, Sight (n + c) s t → Agree fork K c n (f s) (f' t)) :
    Agree fork K c n (get >>= f) (get >>= f') := by
  intro s a u hr
  obtain ⟨hm, hq⟩ := h s s (.refl s) s a u hr
  refine ⟨hm, fun hb => ?_⟩
  obtain ⟨hl, hk, -⟩ := hq hb
  refine ⟨hl, hk, fun hn hc t b v hst hv => ?_⟩
  exact ((h s t (hst.sight (by omega)) s a u hr).2 hb).2.2 hn hc t b v hst hv

/-- What is decided on a value that both states show is decided alike. -/
theorem Agree.look [Result α] {p q : Parser α} {f g : β → Parser α} (value : State → β)
    (hp : ∀ s, p s = f (value s) s) (hq : ∀ s, q s = g (value s) s)
    (hv : ∀ s t, Sight (n + c) s t → value s = value t)
    (h : ∀ b, Agree fork K c n (f b) (g b)) : Agree fork K c n p q := by
  rw [show p = get >>= fun s => f (value s) from funext hp,
    show q = get >>= fun s => g (value s) from funext hq]
  refine .onGet fun s t hst => ?_
  rw [hv s t hst]
  exact h _

/-- A parser that only looks. -/
theorem agree_look [Result α] {p : Parser α} (value : State → α)
    (hp : ∀ s, p s = some (value s, s)) (hv : ∀ s t, Sight n s t → value s = value t) :
    Agree fork True 0 n p p :=
  .look (f := pure) (g := pure) value hp hp hv fun _ => agree_pure _

theorem Agree.onMatch [Result α] {f f' : Token → Parser α}
    (h : ∀ a b, Token.Matches a b → Agree fork K c n (f a) (f' b)) :
    Agree fork K c n (current >>= f) (current >>= f') :=
  .onGet fun s t hst => h s.current t.current hst.current

theorem Agree.onCurrent [Result α] {f f' : Token → Parser α}
    (h : ∀ k l r i j, Agree fork K c n (f ⟨k, l, r, i⟩) (f' ⟨k, l, r, j⟩))
    (hend : ∀ a b : Token, ender a.kind = true → ender b.kind = true →
      Agree fork K c n (f a) (f' b)) :
    Agree fork K c n (current >>= f) (current >>= f') := by
  refine .onMatch fun a b hab => ?_
  rcases hab with hw | ⟨ha, hb⟩
  · obtain ⟨k, l, r, i⟩ := a
    obtain ⟨k', l', r', j⟩ := b
    simp only [Token.word, Prod.mk.injEq] at hw
    obtain ⟨rfl, rfl, rfl⟩ := hw
    exact h k l r i j
  · exact hend a b ha hb

/-- A position is all that is asked of the current token. -/
theorem Agree.onAny [Result α] {f f' : Token → Parser α}
    (h : ∀ a b, Agree fork K c n (f a) (f' b)) :
    Agree fork K c n (current >>= f) (current >>= f') :=
  .onMatch fun a b _ => h a b

/-- Where room is left, the next token is the same in both states. -/
theorem Agree.onCurrentWithin [Result α] {f f' : Token → Parser α} (hpos : 0 < n + c)
    (h : ∀ k l r i j, Agree fork K c n (f ⟨k, l, r, i⟩) (f' ⟨k, l, r, j⟩)) :
    Agree fork K c n (current >>= f) (current >>= f') := by
  refine .onGet fun s t hst => ?_
  have hw := hst.current_word hpos
  generalize s.current = a, t.current = b at hw
  obtain ⟨k, l, r, i⟩ := a
  obtain ⟨k', l', r', j⟩ := b
  simp only [Token.word, Prod.mk.injEq] at hw
  obtain ⟨rfl, rfl, rfl⟩ := hw
  exact h k l r i j

/-- What is decided on the kind of the next token, if it is the same for all that may stand
at the end. -/
theorem Agree.onKind [Result α] {f f' : Token.Kind → Parser α}
    (hclose : f' .parenClose = f' .semicolon) (hcomma : f' .comma = f' .semicolon)
    (h : ∀ k, Agree fork K c n (f k) (f' k)) :
    Agree fork K c n (currentKind >>= f) (currentKind >>= f') := by
  have hend {k : Token.Kind} (hk : ender k = true) : f' k = f' .semicolon := by
    rcases ender_cases hk with rfl | rfl | rfl
    · rfl
    · exact hclose
    · exact hcomma
  refine .onGet fun s t hst => ?_
  have hsame : f' t.current.kind = f' s.current.kind := by
    rcases hst.current with hw | ⟨hs, ht⟩
    · rw [show s.current.kind = t.current.kind from congrArg Prod.fst hw]
    · rw [hend hs, hend ht]
  rw [hsame]
  exact h _

theorem Agree.onKindWithin [Result α] {f f' : Token.Kind → Parser α} (hpos : 0 < n + c)
    (h : ∀ k, Agree fork K c n (f k) (f' k)) :
    Agree fork K c n (currentKind >>= f) (currentKind >>= f') := by
  refine .onGet fun s t hst => ?_
  rw [show s.current.kind = t.current.kind from congrArg Prod.fst (hst.current_word hpos)]
  exact h _

/-- A check for a token that may stand at the end needs room behind it. -/
theorem Agree.check [Result α] {f f' : Bool → Parser α}
    (hk : ender k = false ∨ 0 < n + c) (h : ∀ b, Agree fork K c n (f b) (f' b)) :
    Agree fork K c n (check k >>= f) (check k >>= f') := by
  refine .onGet fun s t hst => ?_
  have hiff : s.current.kind = k ↔ t.current.kind = k := by
    rcases hk with he | hpos
    · exact hst.current.kind_iff he
    · rw [show s.current.kind = t.current.kind from congrArg Prod.fst (hst.current_word hpos)]
  simp only [hiff]
  exact h _

/-- A look at the next two tokens, neither of which may stand at the end. -/
theorem Agree.onPair [Result α] {test : Token.Kind → Bool} {p p' q q' : Parser α}
    (hk : ender k = false) (htest : ∀ k, ender k = true → test k = false)
    (hp : Agree fork K c n p p') (hq : Agree fork K c n q q') :
    Agree fork K c n
      (Parser.check k >>= fun b => peekKind 1 >>= fun k' => if b && test k' then p else q)
      (Parser.check k >>= fun b => peekKind 1 >>= fun k' => if b && test k' then p' else q') := by
  refine .look (f := fun b => if b then p else q) (fun s => decide (s.current.kind = k) &&
    test (s.peek 1).kind) (fun s => rfl) (fun s => rfl) (fun s t hst => ?_)
    fun b => .ite (fun _ => hp) fun _ => hq
  have hfirst := hst.current.kind_iff hk
  by_cases hs : s.current.kind = k
  · have hnext : test (s.peek 1).kind = test (t.peek 1).kind := by
      rcases hst.second (hs ▸ hk) with hw | ⟨hs, ht⟩
      · rw [show (s.peek 1).kind = (t.peek 1).kind from congrArg Prod.fst hw]
      · rw [htest _ hs, htest _ ht]
    rw [decide_eq_true hs, decide_eq_true (hfirst.mp hs), hnext]
  · rw [decide_eq_false hs, decide_eq_false (mt hfirst.mpr hs)]
    rfl

/-! ## Taking tokens -/

/-- A token is taken. Behind the common tokens there is none to take. -/
theorem Agree.advance [Result α] {f f' : Token → Parser α}
    (h : ∀ k l r i j, Agree fork K c n (f ⟨k, l, r, i⟩) (f' ⟨k, l, r, j⟩)) :
    Agree fork K c n (advance >>= f) (advance >>= f') := by
  intro s a u hr
  obtain ⟨⟨a₀, w⟩, hadv, hfr⟩ := Option.bind_eq_some_iff.mp hr
  obtain ⟨-, hsw, hbw⟩ := advance_eq_some hadv
  obtain ⟨hwu, hq⟩ := h a₀.kind a₀.literal a₀.raw a₀.pos a₀.pos w a u hfr
  refine ⟨hsw.trans hwu, fun hb => ?_⟩
  obtain ⟨hl, hk, -⟩ := hq (hb.trans hbw.symm)
  have hle := hsw.ahead.length_le
  refine ⟨by omega, hk, fun hn hc t b v hst hv => ?_⟩
  obtain ⟨⟨b₀, w'⟩, hadv', hfr'⟩ := Option.bind_eq_some_iff.mp hv
  rcases hst.next with ⟨k, l, r, i, j, x, y, hx, hy, hnext⟩ | ⟨hx, hy⟩
  · rw [advance_cons hx] at hadv
    rw [advance_cons hy] at hadv'
    cases hadv
    cases hadv'
    have hrest := ((h k l r i j _ a u hfr).2 (hb.trans hbw.symm)).2.2 hn hc _ b v hnext hfr'
    exact hrest
  · have hpos := fork.left_pos
    rw [← hx] at hpos
    obtain ⟨a₁, x, hax⟩ := List.exists_cons_of_length_pos hpos
    rw [advance_cons hax] at hadv
    cases hadv
    rw [hax] at hx
    have hlen := congrArg List.length hx
    simp only [List.length_cons] at hlen hl
    omega

theorem expect_of_current (h : s.current.kind = k) : expect k s = advance s := by
  change (if s.current.kind = k then Parser.advance else _ : Parser Token) s = _
  rw [if_pos h]

theorem expect_of_other (h : s.current.kind ≠ k) :
    expect k s = some (s.current, s.report s.current.pos (.expected k.name s.current)) := by
  change (if s.current.kind = k then Parser.advance
    else do report (.expected k.name s.current); return s.current : Parser Token) s = _
  rw [if_neg h]
  rfl

theorem Agree.expect [Result α] {f f' : Token → Parser α}
    (hk : (k == .eof) = false)
    (h : ∀ k l r i j, Agree fork K (c - 1) n (f ⟨k, l, r, i⟩) (f' ⟨k, l, r, j⟩)) :
    Agree fork K c n (expect k >>= f) (expect k >>= f') := by
  intro s a u hr
  change ((if s.current.kind = k then Parser.advance
    else do report (.expected k.name s.current); return s.current : Parser Token) >>= f) s = _ at hr
  have hf (a : Token) : Moves (f a) :=
    fun s b u hr => (h a.kind a.literal a.raw a.pos a.pos s b u hr).1
  by_cases hc : s.current.kind = k
  · rw [if_pos hc] at hr
    obtain ⟨hm, hq⟩ := Agree.advance (fun k l r i j => h k l r i j) s a u hr
    refine ⟨hm, fun hb => ?_⟩
    obtain ⟨-, hkeep, ha⟩ := hq hb
    -- the token that was asked for has been taken
    obtain ⟨⟨a₀, w⟩, hadv, hfr⟩ := Option.bind_eq_some_iff.mp hr
    obtain ⟨-, -, hbw⟩ := advance_eq_some hadv
    have hl := ((h a₀.kind a₀.literal a₀.raw a₀.pos a₀.pos w a u hfr).2 (hb.trans hbw.symm)).1
    cases hs : s.ahead with
    | nil =>
      rw [State.current, hs] at hc
      exact absurd hc.symm (ne_of_beq_false hk)
    | cons a₁ x =>
      rw [advance_cons hs] at hadv
      cases hadv
      simp only [List.length_cons] at hl ⊢
      refine ⟨by omega, hkeep, fun hn hclear t b v hst hv => ?_⟩
      refine ha hn hclear t b v hst ?_
      rcases hst.next with ⟨k', l, r, i, j, x, y, hx, hy, -⟩ | ⟨hx, -⟩
      · have hct : t.current.kind = k := by
          rw [← hc]
          simp [State.current, hx, hy]
        change ((if t.current.kind = k then Parser.advance
          else do report (.expected k.name t.current); return t.current : Parser Token) >>= f') t
            = _ at hv
        rwa [if_pos hct] at hv
      · have hlen := congrArg List.length hx
        rw [hs, List.length_cons] at hlen
        omega
  · rw [if_neg hc, bind_assoc] at hr
    exact Agree.loud ((loud_report _).next fun _ => hf _) s a u hr

/-- A token is taken if it is there, which is one of those that `c` counts. -/
theorem Agree.accept [Result α] {f f' : Bool → Parser α}
    (hk : (k == .eof) = false) (hroom : ender k = false ∨ 0 < n + c)
    (htrue : Agree fork K (c - 1) n (f true) (f' true))
    (hfalse : Agree fork K c n (f false) (f' false)) :
    Agree fork K c n (accept k >>= f) (accept k >>= f') := by
  have hdo (f : Bool → Parser α) : (Parser.accept k >>= f) = (Parser.check k >>= fun b =>
      if b then Parser.expect k >>= fun _ => f true else f false) := by
    funext s
    change ((if decide (s.current.kind = k) = true then _ else Pure.pure false : Parser Bool) >>= f) s
      = (if decide (s.current.kind = k) = true then _ else f false : Parser α) s
    by_cases hs : s.current.kind = k
    · rw [if_pos (decide_eq_true hs), if_pos (decide_eq_true hs), bind_assoc]
      change (Parser.advance s).bind _ = (Parser.expect k s).bind _
      rw [expect_of_current hs]
      rfl
    · rw [if_neg (by simpa using hs), if_neg (by simpa using hs)]
      rfl
  rw [hdo, hdo]
  refine .check hroom fun b => ?_
  cases b with
  | true => exact .expect hk fun _ _ _ _ _ => htrue
  | false => exact hfalse

/-- A token is taken if it is there, and what follows does not depend on it. -/
theorem Agree.maybe [Result α] {f f' : Bool → Parser α}
    (hk : (k == .eof) = false) (hroom : ender k = false ∨ 0 < n + c)
    (h : ∀ b, Agree fork K c n (f b) (f' b)) :
    Agree fork K c n (Parser.accept k >>= f) (Parser.accept k >>= f') :=
  .accept hk hroom ((h true).fewer (Nat.sub_le _ _)) (h false)

theorem agree_report [Result α] {e : SyntaxError} {a : α} {q : Parser α} :
    Agree fork K c n (do report e; return a) q :=
  .loud ((loud_report _).next fun _ => .pure _)

/-! ## Loops -/

theorem iterate_succ_eq_some {body : σ → Parser (Step σ β)} {m : Nat} {x : σ} {b : β} {u : State}
    (h : iterate body (m + 1) x s = some (b, u)) : ∃ r v, body x s = some (r, v) ∧
      match r with
      | .more y => iterate body m y v = some (b, u)
      | .done b' => b' = b ∧ v = u := by
  obtain ⟨⟨r, v⟩, hr, hrest⟩ := Option.bind_eq_some_iff.mp (show (body x s).bind _ = _ from h)
  refine ⟨r, v, hr, ?_⟩
  cases r with
  | more y =>
    change (if v.ahead.length < s.ahead.length then iterate body m y else failure) v = _ at hrest
    split at hrest
    · exact hrest
    · cases hrest
  | done b' =>
    cases hrest
    exact ⟨rfl, rfl⟩

/-- The seed of a loop is a part of every round's result, and so of what comes out. -/
theorem agree_iterate [Result σ] [Result β] {body body' : σ → Parser (Step σ β)}
    (h : ∀ x y, Same x y → Agree fork (clear x = true) 0 n (body x) (body' y)) (m m' : Nat)
    {x y : σ} (hxy : Same x y) :
    Agree fork (clear x = true) 0 n (iterate body m x) (iterate body' m' y) := by
  induction m generalizing m' x y with
  | zero => exact .failure
  | succ m ih =>
    intro s a u hr
    obtain ⟨r, w, hbody, hrest⟩ := iterate_succ_eq_some hr
    obtain ⟨hsw, hq⟩ := h x y hxy s r w hbody
    have hle := hsw.ahead.length_le
    cases r with
    | more x' =>
      obtain ⟨hwu, hq'⟩ := ih 0 (.refl x') w a u hrest
      refine ⟨hsw.trans hwu, fun hb => ?_⟩
      obtain ⟨hbw, hbu⟩ := hsw.quiet hwu hb
      obtain ⟨-, hk, ha⟩ := hq hbw
      obtain ⟨hl, hk', -⟩ := hq' hbu
      refine ⟨by omega, fun hc => hk (hk' hc), fun hn hc t b v hst hv => ?_⟩
      cases m' with
      | zero => cases hv
      | succ m' =>
        obtain ⟨r', w', hbody', hrest'⟩ := iterate_succ_eq_some hv
        obtain ⟨hbw', hsame, hww⟩ := ha (by omega) (hk' hc) t r' w' hst hbody'
        cases r' with
        | more y' =>
          obtain ⟨hbv, hab, huv⟩ :=
            ((ih m' (same_more.mp hsame) w a u hrest).2 hbu).2.2 hn hc w' b v hww hrest'
          exact ⟨hbv.trans hbw', hab, huv⟩
        | done => cases hsame
    | done a' =>
      obtain ⟨rfl, rfl⟩ := hrest
      refine ⟨hsw, fun hb => ?_⟩
      obtain ⟨hl, hk, ha⟩ := hq hb
      refine ⟨hl, hk, fun hn hc t b v hst hv => ?_⟩
      cases m' with
      | zero => cases hv
      | succ m' =>
        obtain ⟨r', w', hbody', hrest'⟩ := iterate_succ_eq_some hv
        obtain ⟨hbv, hsame, huv⟩ := ha hn hc t r' w' hst hbody'
        cases r' with
        | more => cases hsame
        | done b' =>
          obtain ⟨rfl, rfl⟩ := hrest'
          exact ⟨hbv, same_done.mp hsame, huv⟩

theorem agree_loop [Result σ] [Result β] {body body' : σ → Parser (Step σ β)} {x y : σ}
    (h : ∀ x y, Same x y → Agree fork (clear x = true) 0 n (body x) (body' y))
    (hxy : Same x y) : Agree fork (clear x = true) 0 n (loop body x) (loop body' y) := by
  intro s a u hr
  obtain ⟨hm, hq⟩ := agree_iterate h (s.ahead.length + 1) 0 hxy s a u hr
  refine ⟨hm, fun hb => ?_⟩
  obtain ⟨hl, hk, -⟩ := hq hb
  refine ⟨hl, hk, fun hn hc t b v hst hv => ?_⟩
  exact ((agree_iterate h _ (t.ahead.length + 1) hxy s a u hr).2 hb).2.2 hn hc t b v hst hv

/-- A loop that carries nothing. -/
theorem agree_skipLoop {body body' : Unit → Parser (Step Unit Unit)}
    (h : Agree fork True 0 n (body ()) (body' ())) :
    Agree fork True 0 n (loop body ()) (loop body' ()) :=
  (agree_loop (fun _ _ _ => h.keep fun _ => rfl) (.refl ())).keep fun _ => trivial

theorem agree_commaList [Result α] {closer : Token.Kind} {p q : Parser α} (hn : 0 < n)
    (h : Agree fork K 0 n p q) :
    Agree fork True 0 n (commaList closer p) (commaList closer q) := by
  refine (agree_loop (fun l l' hl => ?_) (.refl [])).keep fun _ => trivial
  refine .check (.inr hn) fun _ => .check (.inl rfl) fun _ => .ite (fun _ => ?_) fun _ => ?_
  · exact .pure (same_done.mpr hl) id
  · refine .bind h fun a b hab => .accept rfl (.inr hn) ?_ ?_
    · exact .pure (same_more.mpr (hl.concat hab)) clear_concat
    · exact .pure (same_done.mpr (hl.concat hab)) clear_concat

/-- Whether a parser took a token is seen alike in both runs. -/
theorem Agree.measured [Result α] [Result β] {p q : Parser α} {f g : α → Bool → Parser β} {J : Prop}
    (hp : Agree fork J 0 n p q)
    (hf : ∀ a b, Same a b → ∀ idle, Agree fork (K ∧ clear a = true) 0 n (f a idle) (g b idle)) :
    Agree fork K 0 n
      (do
        let before := (← get).ahead.length
        let a ← p
        f a ((← get).ahead.length = before))
      (do
        let before := (← get).ahead.length
        let a ← q
        g a ((← get).ahead.length = before)) := by
  intro s a u hr
  obtain ⟨⟨a₀, w⟩, hpr, hrest⟩ := Option.bind_eq_some_iff.mp (show (p s).bind _ = _ from hr)
  change f a₀ (decide (w.ahead.length = s.ahead.length)) w = _ at hrest
  obtain ⟨hsw, hp'⟩ := hp s a₀ w hpr
  obtain ⟨hwu, hq⟩ := hf a₀ a₀ (.refl _) _ w a u hrest
  refine ⟨hsw.trans hwu, fun hb => ?_⟩
  obtain ⟨hbw, hbu⟩ := hsw.quiet hwu hb
  obtain ⟨hl, -, ha⟩ := hp' hbw
  obtain ⟨hl', hk, -⟩ := hq hbu
  refine ⟨by omega, fun hc => (hk hc).1, fun hn hc t b v hst hv => ?_⟩
  obtain ⟨⟨b₀, w'⟩, hqr, hrest'⟩ := Option.bind_eq_some_iff.mp (show (q t).bind _ = _ from hv)
  change g b₀ (decide (w'.ahead.length = t.ahead.length)) w' = _ at hrest'
  obtain ⟨hbw', hsame, hww⟩ := ha (by omega) (hk hc).2 t b₀ w' hst hqr
  simp only [← hst.length_eq_iff hww] at hrest'
  obtain ⟨hbv, hab, huv⟩ := ((hf a₀ b₀ hsame _ w a u hrest).2 hbu).2.2 hn hc w' b v hww hrest'
  exact ⟨hbv.trans hbw', hab, huv⟩

theorem agree_partsUntil [Result α] {closer : Token.Kind} {p q : Parser (Option α)} (hn : 0 < n)
    (h : Agree fork True 0 n p q) :
    Agree fork True 0 n (partsUntil closer p) (partsUntil closer q) := by
  have hsame {l l' : List α} {o o' : Option α} (hl : Same l l') (ho : Same o o') :
      Same (l ++ o.toList) (l' ++ o'.toList) := by
    change l.map bare = l'.map bare at hl
    change o.map bare = o'.map bare at ho
    have hlist : o.toList.map bare = o'.toList.map bare := by
      simpa [Option.toList_map] using congrArg Option.toList ho
    change (l ++ o.toList).map bare = (l' ++ o'.toList).map bare
    rw [List.map_append, List.map_append, hl, hlist]
  have hclear {l : List α} {o : Option α} (hc : clear (l ++ o.toList) = true) :
      clear l = true ∧ clear o = true := by
    change (l ++ o.toList).all clear = true at hc
    rw [List.all_append, Bool.and_eq_true] at hc
    refine ⟨hc.1, ?_⟩
    cases o with
    | none => rfl
    | some a =>
      change clear a = true
      simpa using hc.2
  refine (agree_loop (fun l l' hl => ?_) (.refl [])).keep fun _ => trivial
  refine .check (.inr hn) fun _ => .check (.inl rfl) fun _ => .ite (fun _ => ?_) fun _ => ?_
  · exact .pure (same_done.mpr hl) id
  · have hround := Agree.measured (K := clear l = true) h
      (f := fun o idle => do
        if idle then let _ ← Parser.advance
        return Step.more (β := List α) (l ++ o.toList))
      (g := fun o idle => do
        if idle then let _ ← Parser.advance
        return Step.more (l' ++ o.toList)) fun o o' ho idle => ?_
    · simpa only [decide_eq_true_eq] using hround
    · refine .ite (fun _ => .advance fun _ _ _ _ _ => ?_) fun _ => ?_
      · exact .pure (same_more.mpr (hsame hl ho)) hclear
      · exact .pure (same_more.mpr (hsame hl ho)) hclear

end Parser
end RustLua
