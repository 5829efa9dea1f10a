import RustLua.Proofs.Lua.CommentScan
import RustLua.Proofs.Lua.Word
import RustLua.Lua.Render

/-! # Minus signs next to each other

Among pieces with clean texts a comment opens exactly where two minus signs are
neighbours. `Reads` says under which condition that happens in a sequence of pieces,
and how the conditions of its parts come together. -/
namespace RustLua.Lua

/-- The pieces that are a minus sign. -/
def Piece.isDash : Piece → Bool
  | .mark .minus | .operator .sub => true
  | _ => false

/-- A piece whose text has no minus sign or quote that could be misread. -/
def Piece.Clean : Piece → Prop
  | .name n => isWord n = true
  | .numeral text | .literal text => Neutral text
  | _ => True

theorem Piece.neutral_text {p : Piece} (hc : p.Clean) (hd : p.isDash = false) :
    Neutral p.text := by
  cases p with
  | keyword k => cases k <;> exact neutral_plain (by decide) (by decide)
  | mark m =>
    cases m with
    | minus => cases hd
    | _ => exact neutral_plain (by decide) (by decide)
  | operator o =>
    cases o with
    | sub => cases hd
    | _ => exact neutral_plain (by decide) (by decide)
  | name n => exact neutral_word hc
  | numeral text | literal text => exact hc
  | blank => exact neutral_plain (by decide) (by decide)

theorem Piece.text_of_isDash {p : Piece} (hd : p.isDash = true) : p.text = [Ascii.minus] := by
  unfold Piece.isDash at hd
  split at hd
  · rfl
  · rfl
  · cases hd

/-- Read pieces, behind a minus sign or not; there is no result behind a second one. -/
def dashes? : Bool → Pieces → Option Bool
  | dash, [] => some dash
  | dash, p :: rest =>
    if p.isDash then if dash then none else dashes? true rest
    else dashes? false rest

theorem dashes?_append (dash : Bool) (p q : Pieces) :
    dashes? dash (p ++ q) = (dashes? dash p).bind fun d => dashes? d q := by
  induction p generalizing dash with
  | nil => rfl
  | cons a p ih =>
    simp only [List.cons_append, dashes?]
    split
    · split
      · rfl
      · exact ih true
    · exact ih false

def modeOf (dash : Bool) : Mode := if dash then .dash else .code

theorem run?_text {pieces : Pieces} (h : ∀ p ∈ pieces, p.Clean) (dash : Bool) :
    (modeOf dash).run? (Pieces.text pieces) = (dashes? dash pieces).map modeOf := by
  induction pieces generalizing dash with
  | nil => rfl
  | cons p rest ih =>
    obtain ⟨hp, hrest⟩ := List.forall_mem_cons.mp h
    rw [Pieces.text, List.flatMap_cons, Mode.run?_append, dashes?]
    cases hd : p.isDash with
    | true =>
      rw [Piece.text_of_isDash hd]
      cases dash with
      | true => rfl
      | false => exact ih hrest true
    | false =>
      have hcode : (modeOf dash).run? p.text = some .code := by
        refine Piece.neutral_text hp hd _ ?_
        cases dash
        · exact .inl rfl
        · exact .inr rfl
      rw [hcode]
      exact ih hrest false

theorem opensComment_text {pieces : Pieces} (h : ∀ p ∈ pieces, p.Clean) :
    opensComment (Pieces.text pieces) = (dashes? false pieces).isNone := by
  have hrun := run?_text h false
  rw [opensComment, show Mode.code = modeOf false from rfl, hrun, Option.isNone_map]

/-! ## When neighbours clash -/

/-- Clean pieces in which two minus signs meet exactly if `clash` holds; if it does not,
they end in something else. -/
structure Reads (dash : Bool) (pieces : Pieces) (clash : Prop) : Prop where
  clean : ∀ p ∈ pieces, p.Clean
  meets : clash → dashes? dash pieces = none
  passes : ¬clash → dashes? dash pieces = some false

/-- Pieces without minus signs. -/
def Silent (pieces : Pieces) : Prop := ∀ p ∈ pieces, p.Clean ∧ p.isDash = false

variable {dash : Bool} {p q : Pieces} {c c' : Prop}

theorem Reads.congr (h : Reads dash p c) (hc : c ↔ c') : Reads dash p c' :=
  ⟨h.clean, fun h' => h.meets (hc.mpr h'), fun h' => h.passes fun h'' => h' (hc.mp h'')⟩

theorem Reads.append (h : Reads dash p c) (h' : Reads false q c') :
    Reads dash (p ++ q) (c ∨ c') := by
  refine ⟨?_, ?_, ?_⟩
  · intro a ha
    rcases List.mem_append.mp ha with ha | ha
    · exact h.clean a ha
    · exact h'.clean a ha
  · intro hcc
    rw [dashes?_append]
    by_cases hc : c
    · rw [h.meets hc]
      rfl
    · rw [h.passes hc]
      exact h'.meets (hcc.resolve_left hc)
  · intro hcc
    rw [dashes?_append, h.passes fun hc => hcc (.inl hc)]
    exact h'.passes fun hc => hcc (.inr hc)

theorem dashes?_silent (hs : Silent p) (hne : p ≠ [] ∨ dash = false) :
    dashes? dash p = some false := by
  induction p generalizing dash with
  | nil => rw [hne.resolve_left (by simp)]; rfl
  | cons a p ih =>
    obtain ⟨ha, hp⟩ := List.forall_mem_cons.mp hs
    rw [dashes?, ha.2]
    exact ih hp (.inr rfl)

theorem Silent.reads (hs : Silent p) (hne : p ≠ [] ∨ dash = false) : Reads dash p False :=
  ⟨fun a ha => (hs a ha).1, fun h => h.elim, fun _ => dashes?_silent hs hne⟩

theorem Reads.before (h : Reads dash p c) (hs : Silent q) : Reads dash (p ++ q) c :=
  (h.append (hs.reads (.inr rfl))).congr (by simp)

theorem Reads.behind (h : Reads false q c) (hs : Silent p) (hne : p ≠ []) :
    Reads dash (p ++ q) c :=
  ((hs.reads (.inl hne)).append h).congr (by simp)

theorem Reads.between {r : Pieces} (h : Reads false q c) (hp : Silent p) (hne : p ≠ [])
    (hr : Silent r) : Reads dash (p ++ q ++ r) c := by
  rw [List.append_assoc]
  exact (h.before hr).behind hp hne

/-- A minus sign between pieces: what follows it must not start with another one. -/
theorem Reads.append_dash {o : Piece} (h : Reads dash p c) (ho : o.isDash = true)
    (hc : o.Clean) (h' : Reads true q c') : Reads dash (p ++ [o] ++ q) (c ∨ c') := by
  rw [List.append_assoc]
  refine h.append ⟨?_, ?_, ?_⟩
  · exact List.forall_mem_cons.mpr ⟨hc, h'.clean⟩
  · intro h''
    simp only [List.singleton_append, dashes?, ho, if_true]
    exact h'.meets h''
  · intro h''
    simp only [List.singleton_append, dashes?, ho, if_true]
    exact h'.passes h''

end RustLua.Lua
