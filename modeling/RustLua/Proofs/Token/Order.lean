import RustLua.Token.Lexer

/-! # Tokens stand in the order of their positions

No two tokens of a source stand at the same position, so that the position of a token says
what lies ahead of it. -/
namespace RustLua

/-- The position is further down, or further right in the same line. -/
def Pos.Before (p q : Pos) : Prop := p.line < q.line ∨ p.line = q.line ∧ p.column < q.column

theorem Pos.Before.trans {p q r : Pos} (h : p.Before q) (h' : q.Before r) : p.Before r := by
  unfold Pos.Before at *
  omega

theorem Pos.Before.ne {p q : Pos} (h : p.Before q) : p ≠ q := by
  rintro rfl
  unfold Pos.Before at h
  omega

theorem Pos.before_after (p : Pos) (b : UInt8) : p.Before (p.after b) := by
  unfold Pos.Before Pos.after
  split <;> simp

namespace Token

variable {tokens u v : List Token} {a b : Token}

/-- Tokens in order, none of them in front of a position. -/
structure Ordered (pos : Pos) (tokens : List Token) : Prop where
  behind : ∀ t ∈ tokens, pos = t.pos ∨ pos.Before t.pos
  pairwise : tokens.Pairwise fun a b => a.pos.Before b.pos

theorem Ordered.earlier {p q : Pos} (h : Ordered q tokens) (hp : p.Before q) :
    Ordered p tokens := by
  refine ⟨fun t ht => .inr ?_, h.pairwise⟩
  rcases h.behind t ht with rfl | hq
  · exact hp
  · exact hp.trans hq

theorem Ordered.cons {pos : Pos} {c : UInt8} (h : Ordered (pos.after c) tokens)
    (ha : a.pos = pos) : Ordered pos (a :: tokens) := by
  have hrest := h.earlier (pos.before_after c)
  refine ⟨?_, List.pairwise_cons.mpr ⟨fun t ht => ?_, h.pairwise⟩⟩
  · rintro t (- | ⟨-, ht⟩)
    · exact .inl ha.symm
    · exact hrest.behind t ht
  · rw [ha]
    rcases h.behind t ht with ht | ht
    · exact ht ▸ pos.before_after c
    · exact (pos.before_after c).trans ht

theorem ordered_endToken {p q : Pos} (h : p = q ∨ p.Before q) : Ordered p [endToken q] := by
  refine ⟨fun t ht => ?_, List.pairwise_singleton _ _⟩
  rwa [List.mem_singleton.mp ht]

theorem ordered_tokensFrom {skip : Nat} {text : Bytes} {pos : Pos}
    (h : tokensFrom skip text pos = .ok tokens) : Ordered pos tokens := by
  induction text generalizing skip pos tokens with
  | nil =>
    simp only [tokensFrom, Except.ok.injEq] at h
    subst h
    refine ordered_endToken ?_
    cases skip with
    | zero => exact .inl rfl
    | succ skip => exact .inr (.inr ⟨rfl, by simp [Pos.right]⟩)
  | cons c rest ih =>
    cases skip with
    | succ skip => exact (ih h).earlier (pos.before_after c)
    | zero =>
      rw [tokensFrom] at h
      split at h
      · exact (ih h).earlier (pos.before_after c)
      split at h
      · cases h
        exact ordered_endToken (.inl rfl)
      split at h
      · cases h
      split at h
      · cases h
      · rename_i hrest
        cases h
        exact (ih hrest).cons rfl

/-- The tokens ahead are determined by the position of the first one. -/
theorem suffix_eq_of_pos {source : Bytes} (h : tokenize source = .ok tokens)
    (hu : a :: u <:+ tokens) (hv : b :: v <:+ tokens) (hab : a.pos = b.pos) :
    a :: u = b :: v := by
  have hpairwise := (ordered_tokensFrom h).pairwise
  -- One of the two ends in the other; if it were longer, its first token would come before.
  have hend {a b : Token} {u v : List Token} (huv : a :: u <:+ b :: v) (hv : b :: v <:+ tokens)
      (hab : a.pos = b.pos) : a :: u = b :: v := by
    rcases List.suffix_cons_iff.mp huv with heq | hin
    · exact heq
    · have hbefore := List.pairwise_cons.mp (hpairwise.sublist hv.sublist)
      exact absurd hab.symm (hbefore.1 a (hin.subset (List.mem_cons_self ..))).ne
  rcases List.suffix_or_suffix_of_suffix hu hv with huv | hvu
  · exact hend huv hv hab
  · exact (hend hvu hu hab.symm).symm

end Token
end RustLua
