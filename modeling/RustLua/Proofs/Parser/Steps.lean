import RustLua.Proofs.Parser.Quiet

/-! # Parsers on known tokens

What the basic steps and the loops do where the tokens ahead are known: equations that let
a production be followed token by token. -/
namespace RustLua.Parser

variable {α β σ : Type} {s t : State} {x : Token} {rest : List Token} {k : Token.Kind}

theorem bind_eq {p : Parser α} {a : α} (h : p s = some (a, t)) (f : α → Parser β) :
    (p >>= f) s = f a t := by
  change (p s).bind _ = _
  rw [h]
  rfl

theorem bind_eq_some {p : Parser α} {f : α → Parser β} {b : β} (h : (p >>= f) s = some (b, t)) :
    ∃ a u, p s = some (a, u) ∧ f a u = some (b, t) := by
  obtain ⟨⟨a, u⟩, hp, hf⟩ := Option.bind_eq_some_iff.mp h
  exact ⟨a, u, hp, hf⟩

theorem State.current_of_ahead (h : s.ahead = x :: rest) : s.current = x := by
  rw [State.current, h]
  rfl

theorem current_bind (f : Token → Parser β) : (current >>= f) s = f s.current s := rfl

theorem currentKind_bind (f : Token.Kind → Parser β) :
    (currentKind >>= f) s = f s.current.kind s := rfl

theorem check_bind (f : Bool → Parser β) :
    (check k >>= f) s = f (decide (s.current.kind = k)) s := rfl

theorem accept_eq (h : s.ahead = x :: rest) (hx : x.kind = k) :
    accept k s = some (true, { s with ahead := rest, previous := x.kind }) := by
  have hc : decide (s.current.kind = k) = true := by
    rw [State.current_of_ahead h]
    exact decide_eq_true hx
  change (if decide (s.current.kind = k) = true then _ else _ : Parser Bool) s = _
  rw [if_pos hc]
  exact bind_eq (advance_cons h) _

theorem withNoStruct_eq_some {p : Parser α} {flag : Bool} {a : α}
    (h : withNoStruct flag p s = some (a, t)) :
    ∃ u, p { s with noStruct := flag } = some (a, u) ∧ t = { u with noStruct := s.noStruct } := by
  obtain ⟨⟨b, u⟩, hp, hu⟩ := Option.bind_eq_some_iff.mp
    (show (p { s with noStruct := flag }).bind _ = _ from h)
  cases hu
  exact ⟨u, hp, rfl⟩

/-! ## Loops

A loop is given a round for each token ahead. Every round but the last takes a token, so
the rounds never run out, and how many there are does not matter. -/

theorem iterate_stable {body : σ → Parser (Step σ β)} {m n : Nat} {a : σ}
    (hm : s.ahead.length < m) (hn : s.ahead.length < n) :
    iterate body m a s = iterate body n a s := by
  induction m generalizing n a s with
  | zero => omega
  | succ m ih =>
    obtain ⟨n, rfl⟩ : ∃ n', n = n' + 1 := ⟨n - 1, by omega⟩
    change (body a s).bind _ = (body a s).bind _
    congr 1
    funext x
    obtain ⟨r, t⟩ := x
    cases r with
    | done b => rfl
    | more a' =>
      change (if t.ahead.length < s.ahead.length then iterate body m a' else failure) t =
        (if t.ahead.length < s.ahead.length then iterate body n a' else failure) t
      split
      · exact ih (by omega) (by omega)
      · rfl

theorem loop_more {body : σ → Parser (Step σ β)} {a a' : σ}
    (h : body a s = some (.more a', t)) (ht : t.ahead.length < s.ahead.length) :
    loop body a s = loop body a' t := by
  change iterate body (s.ahead.length + 1) a s = iterate body (t.ahead.length + 1) a' t
  rw [iterate_more h ht]
  exact iterate_stable ht (Nat.lt_succ_self _)

theorem loop_done {body : σ → Parser (Step σ β)} {a : σ} {b : β}
    (h : body a s = some (.done b, t)) : loop body a s = some (b, t) :=
  iterate_done h _

/-- The first round of a loop that ends. -/
theorem loop_eq_some {body : σ → Parser (Step σ β)} {a : σ} {b : β}
    (h : loop body a s = some (b, t)) : ∃ r u, body a s = some (r, u) ∧
      match r with
      | .more a' => u.ahead.length < s.ahead.length ∧ loop body a' u = some (b, t)
      | .done b' => b' = b ∧ u = t := by
  obtain ⟨⟨r, u⟩, hr, hrest⟩ := Option.bind_eq_some_iff.mp (show (body a s).bind _ = _ from h)
  refine ⟨r, u, hr, ?_⟩
  cases r with
  | more a' =>
    change (if u.ahead.length < s.ahead.length then _ else failure : Parser β) u = _ at hrest
    split at hrest
    · rename_i hlt
      exact ⟨hlt, (loop_more hr hlt).symm.trans h⟩
    · cases hrest
  | done b' =>
    cases hrest
    exact ⟨rfl, rfl⟩

end RustLua.Parser
