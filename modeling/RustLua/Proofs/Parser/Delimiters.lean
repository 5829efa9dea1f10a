import Mathlib.Algebra.Ring.Int.Defs
import RustLua.Proofs.Parser.Speculation

/-! # Where delimiters are read

Most productions take an opening delimiter and then insist on the closing one of its
kind. What the tree does not keep is skipped instead: there delimiters are counted
without regard to their kinds, or passed like any other token. `Stretch` says token by
token which is which, and collects the runs of tokens that are skipped. If all of these
are balanced, so is the whole. -/
namespace RustLua.Parser

variable {σ τ : List Token.Kind} {xs ys : List Token} {k : Token.Kind} {r : Region}

/-! ## Balanced tokens -/

/-- What is open behind a closing delimiter, which has to belong to the innermost open one. -/
def close? (k : Token.Kind) : List Token.Kind → Option (List Token.Kind)
  | [] => none
  | innermost :: outer => if k = innermost then some outer else none

/-- The delimiters that are open behind some tokens, each as the one that closes it, the
innermost first. -/
def openBehind? : List Token.Kind → List Token → Option (List Token.Kind)
  | stack, [] => some stack
  | stack, t :: rest =>
    if opens t.kind then openBehind? (closerOf t.kind :: stack) rest
    else if closes t.kind then (close? t.kind stack).bind (openBehind? · rest)
    else openBehind? stack rest

/-- Every delimiter is closed by one of its kind, and every one that closes was open. -/
def Balanced (tokens : List Token) : Prop := openBehind? [] tokens = some []

instance : DecidablePred Balanced := fun _ => inferInstanceAs (Decidable (_ = _))

theorem openBehind?_append (σ : List Token.Kind) (xs ys : List Token) :
    openBehind? σ (xs ++ ys) = (openBehind? σ xs).bind (openBehind? · ys) := by
  induction xs generalizing σ with
  | nil => rfl
  | cons t rest ih =>
    rw [List.cons_append, openBehind?, openBehind?]
    split
    · exact ih _
    · split
      · cases close? t.kind σ with
        | none => rfl
        | some outer => exact ih outer
      · exact ih _

theorem close?_under (h : close? k σ = some τ) (ρ : List Token.Kind) :
    close? k (σ ++ ρ) = some (τ ++ ρ) := by
  cases σ with
  | nil => cases h
  | cons innermost outer =>
    simp only [close?, List.cons_append, Option.ite_none_right_eq_some, Option.some.injEq] at h ⊢
    exact ⟨h.1, by rw [h.2]⟩

/-- More delimiters around do not matter. -/
theorem openBehind?_under (h : openBehind? σ xs = some τ) (ρ : List Token.Kind) :
    openBehind? (σ ++ ρ) xs = some (τ ++ ρ) := by
  induction xs generalizing σ with
  | nil => cases h; rfl
  | cons t rest ih =>
    rw [openBehind?] at h ⊢
    split at h
    · rename_i ho
      rw [if_pos ho]
      exact ih h
    · rename_i ho
      rw [if_neg ho]
      split at h
      · rename_i hc
        obtain ⟨outer, hclose, hrest⟩ := Option.bind_eq_some_iff.mp h
        rw [if_pos hc, close?_under hclose ρ]
        exact ih hrest
      · rename_i hc
        rw [if_neg hc]
        exact ih h

/-- Tokens that leave open what is open before them. -/
def Even (tokens : List Token) : Prop := ∀ σ, openBehind? σ tokens = some σ

theorem Balanced.even (h : Balanced xs) : Even xs :=
  fun σ => openBehind?_under h σ

theorem even_nil : Even [] := fun _ => rfl

theorem Even.append (hx : Even xs) (hy : Even ys) : Even (xs ++ ys) := by
  intro σ
  rw [openBehind?_append, hx σ]
  exact hy σ

theorem Even.cons {t : Token} (ho : opens t.kind = false) (hc : closes t.kind = false)
    (h : Even xs) : Even (t :: xs) := by
  intro σ
  rw [openBehind?, if_neg (by simp [ho]), if_neg (by simp [hc])]
  exact h σ

theorem closes_closerOf (k : Token.Kind) : closes (closerOf k) = true := by
  unfold closerOf
  split <;> rfl

theorem opens_closerOf (k : Token.Kind) : opens (closerOf k) = false := by
  unfold closerOf
  split <;> rfl

theorem Even.nested {o c : Token} (ho : opens o.kind = true) (hc : c.kind = closerOf o.kind)
    (hx : Even xs) (hy : Even ys) : Even (o :: xs ++ c :: ys) := by
  intro σ
  rw [List.cons_append, openBehind?, if_pos ho, openBehind?_append, hx]
  change openBehind? (closerOf o.kind :: σ) (c :: ys) = some σ
  rw [openBehind?, hc, if_neg (by simp [opens_closerOf]), if_pos (closes_closerOf _)]
  simpa [close?] using hy σ

/-! ## Runs that are skipped -/

/-- A group that starts with this delimiter, and what stands behind it. -/
def Group (k : Token.Kind) (run after : List Token) : Prop :=
  (∃ t inside, run = t :: inside ∧ t.kind = k ∧ opens k = true) ∧ DelimitedGroup run after

/-- How many angle brackets a token opens. -/
def angles : Token.Kind → Int
  | .less => 1
  | .shiftLeft => 2
  | .greater => -1
  | .shiftRight => -2
  | _ => 0

def angleNesting (tokens : List Token) : Int := (tokens.map fun t => angles t.kind).sum

/-- A list of generic arguments, and what stands behind it: up to its last token some angle
bracket is open, and there all are closed unless the source ends. Delimiters other than an
opening brace are passed like any other token. -/
structure Generics (run after : List Token) : Prop where
  first : ∃ t inside, run = t :: inside ∧ t.kind = .less
  unclosed : ∀ n, 0 < n → n < run.length → 0 < angleNesting (run.take n)
  inside : ∀ t ∈ run, t.kind ≠ .eof ∧ t.kind ≠ .semicolon ∧ t.kind ≠ .braceOpen
  ending : angleNesting run ≤ 0 ∨ (after.headD beyond).kind = .eof

/-- Tokens that are passed one by one up to one of the `stops` or the end, with the groups
and lists that start with one of the `groups` passed as a whole. -/
inductive Passed (stops groups : List Token.Kind) : List Token → List Token → Prop
  | done {after : List Token} (hk : (after.headD beyond).kind ∈ .eof :: stops) :
      Passed stops groups [] after
  | token {t : Token} {run after : List Token} (hk : t.kind ∉ .eof :: (stops ++ groups))
      (h : Passed stops groups run after) : Passed stops groups (t :: run) after
  | group {k : Token.Kind} {piece run after : List Token} (hk : k ∈ groups)
      (hg : Group k piece (run ++ after)) (h : Passed stops groups run after) :
      Passed stops groups (piece ++ run) after
  | generics {piece run after : List Token} (hk : .less ∈ groups)
      (hg : Generics piece (run ++ after)) (h : Passed stops groups run after) :
      Passed stops groups (piece ++ run) after

/-! ## Regions -/

/-- What kind of text some tokens are read as. -/
inductive Region where
  | code
  | path
  | pattern
  /-- Patterns with types behind them. -/
  | declaration
  | type
deriving DecidableEq

namespace Region

/-- The tokens that are taken one by one. Of the delimiters none is, and no arrow of a match
arm, so that it ends the pattern or the guard in front of it. -/
def reads : Region → Token.Kind → Bool
  | .code, k => !(opens k || closes k || k = .fatArrow || k = .eof)
  | .path, k => startsSegment k || k = .pathSep
  | .pattern, k | .declaration, k =>
    [.underscore, .dotDot, .dotDotEq, .kwRef, .kwMut, .ident, .kwSelf, .kwSelfType, .kwCrate,
      .kwSuper, .pathSep, .amp, .andAnd, .lifetime, .atSign, .pipe, .comma, .minus, .intLit,
      .floatLit, .stringLit, .charLit, .byteStringLit, .kwTrue, .kwFalse].contains k
  | .type, k =>
    [.amp, .andAnd, .lifetime, .kwMut, .star, .kwConst, .bang, .underscore, .kwUnsafe, .kwExtern,
      .stringLit, .kwFn, .arrow, .kwImpl, .ident, .plus, .question, .pathSep, .kwSelf,
      .kwSelfType, .kwCrate, .kwSuper, .kwFor].contains k

/-- The opening delimiters whose group is read. -/
def nests : Region → Token.Kind → Bool
  | .code, k => opens k
  | .pattern, k | .declaration, k => k = .parenOpen || k = .bracketOpen
  | _, _ => false

/-- What stands between delimiters that are read. -/
def inner : Region → Region
  | .declaration => .pattern
  | r => r

/-- The opening delimiters whose group is skipped. -/
def skips : Region → Token.Kind → Bool
  | .pattern, k | .declaration, k => k = .braceOpen
  | .type, k => k = .parenOpen || k = .bracketOpen
  | _, _ => false

end Region

/-- `Stretch r skipped before after`: the tokens from `before` up to `after` are read as `r`,
and the runs `skipped` among them are not looked into. -/
inductive Stretch : Region → List (List Token) → List Token → List Token → Prop
  | done {r : Region} {x : List Token} : Stretch r [] x x
  | plain {r : Region} {t : Token} {runs : List (List Token)} {x y : List Token}
      (hk : r.reads t.kind = true) (hs : Stretch r runs x y) : Stretch r runs (t :: x) y
  | nested {r : Region} {o c : Token} {runs runs' : List (List Token)} {x y z : List Token}
      (ho : r.nests o.kind = true) (hi : Stretch r.inner runs x (c :: y))
      (hc : c.kind = closerOf o.kind) (hs : Stretch r runs' y z) :
      Stretch r (runs ++ runs') (o :: x) z
  | group {r : Region} {k : Token.Kind} {run : List Token} {runs : List (List Token)}
      {y z : List Token} (hk : r.skips k = true) (hg : Group k run y) (hs : Stretch r runs y z) :
      Stretch r (run :: runs) (run ++ y) z
  | generics {run : List Token} {runs : List (List Token)} {y z : List Token}
      (hg : Generics run y) (hs : Stretch .type runs y z) :
      Stretch .type (run :: runs) (run ++ y) z
  /-- Outside of types generic arguments stand behind `::` only. -/
  | turbofish {r : Region} {t : Token} {run : List Token} {runs : List (List Token)}
      {y z : List Token} (hr : r ≠ .type) (hk : t.kind = .pathSep) (hg : Generics run y)
      (hs : Stretch r runs y z) : Stretch r (run :: runs) (t :: (run ++ y)) z
  | attributed {r : Region} {t : Token} {bang : Option Token} {run : List Token}
      {runs : List (List Token)} {y z : List Token} (hr : r = .code ∨ r = .declaration)
      (hk : t.kind = .pound) (hb : ∀ b ∈ bang, b.kind = .bang) (hg : Group .bracketOpen run y)
      (hs : Stretch r runs y z) : Stretch r (run :: runs) (t :: (bang.toList ++ (run ++ y))) z
  | ascribed {t : Token} {runs runs' : List (List Token)} {x y z : List Token}
      (hk : t.kind = .colon) (ht : Stretch .type runs x y) (hs : Stretch .declaration runs' y z) :
      Stretch .declaration (runs ++ runs') (t :: x) z
  | visibility {t : Token} {run : List Token} {runs : List (List Token)} {y z : List Token}
      (hk : t.kind = .kwPub) (hg : Group .parenOpen run y) (hs : Stretch .code runs y z) :
      Stretch .code (run :: runs) (t :: (run ++ y)) z
  /-- A macro whose arguments are no list of expressions, or one that stands for an item. -/
  | skippedMacro {p bang : Token} {name : Option Token} {k : Token.Kind} {run : List Token}
      {runs runs' : List (List Token)} {x y z : List Token}
      (hp : Region.path.reads p.kind = true)
      (hx : Stretch .path runs (p :: x) (bang :: (name.toList ++ (run ++ y))))
      (hb : bang.kind = .bang) (hn : ∀ n ∈ name, n.kind = .ident) (hg : Group k run y)
      (hs : Stretch .code runs' y z) : Stretch .code (runs ++ run :: runs') (p :: x) z
  | typed {t : Token} {runs runs' : List (List Token)} {x y z : List Token}
      (hk : t.kind = .kwAs ∨ t.kind = .arrow ∨ t.kind = .kwImpl) (ht : Stretch .type runs x y)
      (hs : Stretch .code runs' y z) : Stretch .code (runs ++ runs') (t :: x) z
  | declared {t : Token} {runs runs' : List (List Token)} {x y z : List Token}
      (hk : t.kind = .kwLet ∨ t.kind = .kwConst ∨ t.kind = .kwStatic)
      (hd : Stretch .declaration runs x y) (hs : Stretch .code runs' y z) :
      Stretch .code (runs ++ runs') (t :: x) z
  | forLoop {t u : Token} {runs runs' : List (List Token)} {x y z : List Token}
      (hk : t.kind = .kwFor) (hp : Stretch .pattern runs x (u :: y)) (hu : u.kind = .kwIn)
      (hs : Stretch .code runs' y z) : Stretch .code (runs ++ runs') (t :: x) z
  | arm {t : Token} {runs runs' : List (List Token)} {x y z : List Token}
      (hp : Stretch .pattern runs x (t :: y)) (hk : t.kind = .fatArrow)
      (hs : Stretch .code runs' y z) : Stretch .code (runs ++ runs') x z
  | guardedArm {t u : Token} {runs runs' runs'' : List (List Token)} {x y z w : List Token}
      (hp : Stretch .pattern runs x (t :: y)) (hk : t.kind = .kwIf)
      (hg : Stretch .code runs' y (u :: z)) (hu : u.kind = .fatArrow)
      (hs : Stretch .code runs'' z w) : Stretch .code (runs ++ (runs' ++ runs'')) x w
  | closure {t u : Token} {runs runs' : List (List Token)} {x y z : List Token}
      (hk : t.kind = .pipe) (hd : Stretch .declaration runs x (u :: y)) (hu : u.kind = .pipe)
      (hs : Stretch .code runs' y z) : Stretch .code (runs ++ runs') (t :: x) z
  | header {t name o c : Token} {args : List Token} {runs runs' : List (List Token)}
      {x y z : List Token} (hk : t.kind = .kwFn) (hn : name.kind = .ident)
      (hg : args = [] ∨ Generics args (o :: x)) (ho : o.kind = .parenOpen)
      (hd : Stretch .declaration runs x (c :: y)) (hc : c.kind = .parenClose)
      (hs : Stretch .code runs' y z) :
      Stretch .code (args :: (runs ++ runs')) (t :: name :: (args ++ o :: x)) z
  | whereClause {t : Token} {run : List Token} {runs : List (List Token)} {y z : List Token}
      (hk : t.kind = .kwWhere) (hp : Passed [.braceOpen, .semicolon] [.less] run y)
      (hs : Stretch .code runs y z) : Stretch .code (run :: runs) (t :: (run ++ y)) z
  | useTree {t : Token} {run : List Token} {runs : List (List Token)} {y z : List Token}
      (hk : t.kind = .kwUse) (hp : Passed [.semicolon] [.braceOpen] run y)
      (hs : Stretch .code runs y z) : Stretch .code (run :: runs) (t :: (run ++ y)) z
  | externCrate {t u : Token} {run : List Token} {runs : List (List Token)} {y z : List Token}
      (hk : t.kind = .kwExtern) (hu : u.kind = .kwCrate) (hp : Passed [.semicolon] [] run y)
      (hs : Stretch .code runs y z) : Stretch .code (run :: runs) (t :: u :: (run ++ y)) z
  | definition {t name : Token} {run body : List Token} {runs : List (List Token)}
      {y z : List Token}
      (hk : t.kind ∈ [.kwStruct, .kwEnum, .kwTrait, .kwType] ∨
        t.kind = .ident ∧ t.literal = "union")
      (hn : name.kind = .ident)
      (hp : Passed [.semicolon, .braceOpen] [.parenOpen, .bracketOpen, .less] run (body ++ y))
      (hb : body = [] ∨ Group .braceOpen body y) (hs : Stretch .code runs y z) :
      Stretch .code (run :: body :: runs) (t :: name :: (run ++ (body ++ y))) z

/-- The tokens of a file: code up to the end, and between items closing braces that nothing
has opened. -/
inductive FileTokens : List (List Token) → List Token → Prop
  | finish {x : List Token} (hx : ∀ t ∈ x, t.kind = .eof) : FileTokens [] x
  | code {runs runs' : List (List Token)} {x y : List Token} (hs : Stretch .code runs x y)
      (h : FileTokens runs' y) : FileTokens (runs ++ runs') x
  | strayBrace {t : Token} {runs : List (List Token)} {x : List Token}
      (ht : t.kind = .braceClose) (h : FileTokens runs x) : FileTokens ([t] :: runs) (t :: x)

/-! ## What is skipped decides -/

theorem eq_of_opens (h : opens k = true) :
    k = .parenOpen ∨ k = .bracketOpen ∨ k = .braceOpen := by
  unfold opens at h
  split at h <;> simp_all

theorem eq_of_closes (h : closes k = true) :
    k = .parenClose ∨ k = .bracketClose ∨ k = .braceClose := by
  unfold closes at h
  split at h <;> simp_all

theorem Region.opens_eq_false (h : r.reads k = true) :
    opens k = false := by
  cases ho : opens k with
  | false => rfl
  | true => rcases eq_of_opens ho with rfl | rfl | rfl <;> cases r <;> cases h

theorem Region.closes_eq_false (h : r.reads k = true) :
    closes k = false := by
  cases hc : closes k with
  | false => rfl
  | true => rcases eq_of_closes hc with rfl | rfl | rfl <;> cases r <;> cases h

theorem Region.opens_of_nests (h : r.nests k = true) :
    opens k = true := by
  cases r with
  | code => exact h
  | path | type => cases h
  | pattern | declaration =>
    simp only [nests, Bool.or_eq_true, decide_eq_true_eq] at h
    rcases h with rfl | rfl <;> rfl

/-- The tokens from the first list up to the second are even. -/
def EvenTo (x y : List Token) : Prop := ∃ taken, x = taken ++ y ∧ Even taken

theorem EvenTo.refl (x : List Token) : EvenTo x x := ⟨[], rfl, even_nil⟩

theorem EvenTo.trans {x y z : List Token} (h : EvenTo x y) (h' : EvenTo y z) : EvenTo x z := by
  obtain ⟨taken, rfl, ht⟩ := h
  obtain ⟨taken', rfl, ht'⟩ := h'
  exact ⟨taken ++ taken', (List.append_assoc ..).symm, ht.append ht'⟩

theorem EvenTo.run {run y : List Token} (h : Balanced run) : EvenTo (run ++ y) y :=
  ⟨run, rfl, h.even⟩

theorem EvenTo.token {t : Token} {x : List Token} (hk : t.kind = k)
    (ho : opens k = false) (hc : closes k = false) : EvenTo (t :: x) x := by
  subst hk
  exact ⟨[t], rfl, even_nil.cons ho hc⟩

theorem EvenTo.nested {o c : Token} {x y : List Token} (ho : opens o.kind = true)
    (hx : EvenTo x (c :: y)) (hc : c.kind = closerOf o.kind) : EvenTo (o :: x) y := by
  obtain ⟨taken, rfl, ht⟩ := hx
  exact ⟨o :: taken ++ [c], by simp, ht.nested ho hc even_nil⟩

theorem Stretch.evenTo {runs : List (List Token)} {x y : List Token}
    (h : Stretch r runs x y) (hb : ∀ run ∈ runs, Balanced run) : EvenTo x y := by
  induction h with
  | done => exact .refl _
  | plain hk _ ih => exact (EvenTo.token rfl (Region.opens_eq_false hk)
      (Region.closes_eq_false hk)).trans (ih hb)
  | nested ho _ hc _ ihi ihs =>
    rw [List.forall_mem_append] at hb
    exact (EvenTo.nested (Region.opens_of_nests ho) (ihi hb.1) hc).trans (ihs hb.2)
  | group _ _ _ ih | generics _ _ ih =>
    rw [List.forall_mem_cons] at hb
    exact (EvenTo.run hb.1).trans (ih hb.2)
  | turbofish _ hk _ _ ih | visibility hk _ _ ih | whereClause hk _ _ ih | useTree hk _ _ ih =>
    rw [List.forall_mem_cons] at hb
    exact (EvenTo.token hk rfl rfl).trans ((EvenTo.run hb.1).trans (ih hb.2))
  | @attributed _ _ bang _ _ _ _ _ hk hbang _ _ ih =>
    rw [List.forall_mem_cons] at hb
    refine (EvenTo.token hk rfl rfl).trans (.trans ?_ ((EvenTo.run hb.1).trans (ih hb.2)))
    cases bang with
    | none => exact .refl _
    | some b => exact .token (hbang b rfl) rfl rfl
  | ascribed hk _ _ iht ihs =>
    rw [List.forall_mem_append] at hb
    exact (EvenTo.token hk rfl rfl).trans ((iht hb.1).trans (ihs hb.2))
  | @skippedMacro _ _ name _ _ _ _ _ _ _ _ _ hbang hn _ _ ihx ihs =>
    rw [List.forall_mem_append, List.forall_mem_cons] at hb
    refine (ihx hb.1).trans ((EvenTo.token hbang rfl rfl).trans (.trans ?_
      ((EvenTo.run hb.2.1).trans (ihs hb.2.2))))
    cases name with
    | none => exact .refl _
    | some n => exact .token (hn n rfl) rfl rfl
  | typed hk _ _ iht ihs =>
    rw [List.forall_mem_append] at hb
    refine EvenTo.trans ?_ ((iht hb.1).trans (ihs hb.2))
    rcases hk with hk | hk | hk <;> exact .token hk rfl rfl
  | declared hk _ _ ihd ihs =>
    rw [List.forall_mem_append] at hb
    refine EvenTo.trans ?_ ((ihd hb.1).trans (ihs hb.2))
    rcases hk with hk | hk | hk <;> exact .token hk rfl rfl
  | forLoop hk _ hu _ ihp ihs | closure hk _ hu _ ihp ihs =>
    rw [List.forall_mem_append] at hb
    exact (EvenTo.token hk rfl rfl).trans ((ihp hb.1).trans
      ((EvenTo.token hu rfl rfl).trans (ihs hb.2)))
  | arm _ hk _ ihp ihs =>
    rw [List.forall_mem_append] at hb
    exact (ihp hb.1).trans ((EvenTo.token hk rfl rfl).trans (ihs hb.2))
  | guardedArm _ hk _ hu _ ihp ihg ihs =>
    rw [List.forall_mem_append, List.forall_mem_append] at hb
    exact (ihp hb.1).trans ((EvenTo.token hk rfl rfl).trans ((ihg hb.2.1).trans
      ((EvenTo.token hu rfl rfl).trans (ihs hb.2.2))))
  | header hk hn _ ho _ hc _ ihd ihs =>
    rw [List.forall_mem_cons, List.forall_mem_append] at hb
    refine (EvenTo.token hk rfl rfl).trans ((EvenTo.token hn rfl rfl).trans
      ((EvenTo.run hb.1).trans (.trans ?_ (ihs hb.2.2))))
    exact .nested (by rw [ho]; rfl) (ihd hb.2.1) (by rw [hc, ho]; rfl)
  | externCrate hk hu _ _ ih =>
    rw [List.forall_mem_cons] at hb
    exact (EvenTo.token hk rfl rfl).trans ((EvenTo.token hu rfl rfl).trans
      ((EvenTo.run hb.1).trans (ih hb.2)))
  | definition hk hn _ _ _ ih =>
    rw [List.forall_mem_cons, List.forall_mem_cons] at hb
    refine EvenTo.trans ?_ ((EvenTo.token hn rfl rfl).trans ((EvenTo.run hb.1).trans
      ((EvenTo.run hb.2.1).trans (ih hb.2.2))))
    simp only [List.mem_cons, List.not_mem_nil, or_false] at hk
    rcases hk with (hk | hk | hk | hk) | ⟨hk, _⟩ <;> exact .token hk rfl rfl

theorem FileTokens.balanced {runs : List (List Token)} {tokens : List Token}
    (h : FileTokens runs tokens) (hb : ∀ run ∈ runs, Balanced run) : Balanced tokens := by
  suffices Even tokens from this []
  induction h with
  | @finish x hx =>
    induction x with
    | nil => exact even_nil
    | cons t rest ih =>
      rw [List.forall_mem_cons] at hx
      exact (ih hx.2).cons (by rw [hx.1]; rfl) (by rw [hx.1]; rfl)
  | code hs _ ih =>
    rw [List.forall_mem_append] at hb
    obtain ⟨taken, rfl, ht⟩ := hs.evenTo hb.1
    exact ht.append (ih hb.2)
  | strayBrace ht _ ih =>
    rw [List.forall_mem_cons] at hb
    exact hb.1.even.append (ih hb.2)

end RustLua.Parser
