import RustLua.Lua.Piece

/-! # Reading expressions by precedence

A reader of Lua expressions, over pieces without blanks. It follows the parser of
Lua 5.4: behind an operand it takes the operators that bind tighter than a limit, and
what stands on the right of an operator is read with that operator as the limit, so
that equal operators group to the left. A minus sign is unary or binary by its place
alone. The priorities are those of the language and not those of the renderer. -/
namespace RustLua.Lua

/-- An expression as Lua groups it. Parentheses leave no trace, and an operand is kept as
its pieces. -/
inductive Reading where
  | operand (pieces : Pieces)
  | minus (e : Reading)
  | binary (op : Operator) (left right : Reading)
deriving DecidableEq, Repr

/-- How tightly the operators of Lua 5.4 bind. Concatenation is at 9 on its left and at 8
on its right, and exponentiation above the unary operators; neither is ever rendered. -/
def Operator.priority : Operator → Nat
  | .or => 1
  | .and => 2
  | .lt | .gt | .le | .ge | .ne | .eq => 3
  | .bor => 4
  | .bxor => 5
  | .band => 6
  | .shl | .shr => 7
  | .add | .sub => 10
  | .mul | .div | .mod => 11

def unaryPriority : Nat := 12

theorem Operator.priority_pos (o : Operator) : 0 < o.priority := by
  cases o <;> decide

theorem Operator.priority_lt_unary (o : Operator) : o.priority < unaryPriority := by
  cases o <;> decide

/-! ## Operands -/

namespace Piece

/-- Does a group start here that ends at a closing bracket or at `end`? -/
def opens : Piece → Bool
  | .mark .parenOpen | .mark .braceOpen => true
  | .keyword .functionKw | .keyword .doKw | .keyword .ifKw => true
  | _ => false

def closes : Piece → Bool
  | .mark .parenClose | .mark .braceClose | .keyword .endKw => true
  | _ => false

/-- Can this continue an operand: a field, arguments in parentheses, a table or a literal? -/
def isSuffix : Piece → Bool
  | .mark .dot | .mark .parenOpen | .mark .braceOpen | .literal _ => true
  | _ => false

def isMinus : Piece → Bool
  | .mark .minus | .operator .sub => true
  | _ => false

/-- The operator that a piece is behind an operand. -/
def binary? : Piece → Option Operator
  | .operator o => some o
  | .mark .minus => some .sub
  | _ => none

end Piece

/-- The number of pieces up to the end of `depth` open groups, and from there on, if what
they end is the beginning of an operand (`isHead`), over what continues it. -/
def restWidth (isHead : Bool) : Nat → Pieces → Nat
  | _, [] => 0
  | depth + 1, a :: rest =>
    1 + restWidth isHead (if a.opens then depth + 2 else if a.closes then depth else depth + 1) rest
  | 0, .mark .dot :: .name _ :: rest => if isHead then 2 + restWidth isHead 0 rest else 0
  | 0, a :: rest =>
    if isHead && a.isSuffix then 1 + restWidth isHead (if a.opens then 1 else 0) rest else 0

theorem restWidth_false (rest : Pieces) : restWidth false 0 rest = 0 := by
  unfold restWidth
  split <;> simp_all

/-- The number of pieces of a group in parentheses, whose first piece is taken. -/
def groupWidth (rest : Pieces) : Nat := 1 + restWidth false 1 rest

/-- The number of pieces of the operand that pieces start with, 0 if there is none. Only
names and what stands in parentheses can be continued. -/
def operandWidth : Pieces → Nat
  | [] => 0
  | a :: rest =>
    match a with
    | .name _ => 1 + restWidth true 0 rest
    | .mark .parenOpen => 1 + restWidth true 1 rest
    | .mark .braceOpen | .keyword .functionKw => groupWidth rest
    | .numeral _ | .literal _ | .keyword .trueKw | .keyword .falseKw => 1
    | _ => 0

/-! ## Expressions -/

/-- One operand, with a reader of what stands behind a unary minus or in parentheses, and
what is left. -/
def operand? (subexp : Nat → Pieces → Option (Reading × Pieces)) :
    Pieces → Option (Reading × Pieces)
  | [] => none
  | a :: rest =>
    let width := operandWidth (a :: rest)
    if a.isMinus then do
      let (e, rest) ← subexp unaryPriority rest
      return (.minus e, rest)
    else if a = .mark .parenOpen ∧ width = groupWidth rest then do
      match ← subexp 0 rest with
      | (e, .mark .parenClose :: rest) => return (e, rest)
      | _ => none
    else if width = 0 then none
    else some (.operand ((a :: rest).take width), (a :: rest).drop width)

mutual

/-- An operand with the operators behind it that bind tighter than `limit`. The first
number bounds the steps. -/
def subexp? : Nat → Nat → Pieces → Option (Reading × Pieces)
  | 0, _, _ => none
  | fuel + 1, limit, input => do
    let (e, rest) ← operand? (subexp? fuel) input
    climb? fuel limit e rest

/-- The operators behind the expression `left` that bind tighter than `limit`. -/
def climb? : Nat → Nat → Reading → Pieces → Option (Reading × Pieces)
  | 0, _, _, _ => none
  | fuel + 1, limit, left, input =>
    match input.head?.bind Piece.binary? with
    | none => some (left, input)
    | some o =>
      if limit < o.priority then do
        let (right, rest) ← subexp? fuel o.priority input.tail
        climb? fuel limit (.binary o left right) rest
      else some (left, input)

end

/-- Pieces as one expression. Every step takes a piece, so their number bounds the steps. -/
def read? (pieces : Pieces) : Option Reading :=
  match subexp? (pieces.length + 1) 0 pieces with
  | some (e, []) => some e
  | _ => none

/-! ## More steps give the same reading -/

theorem operand?_mono {f g : Nat → Pieces → Option (Reading × Pieces)}
    (hfg : ∀ limit input r, f limit input = some r → g limit input = some r)
    {input : Pieces} {r : Reading × Pieces} (h : operand? f input = some r) :
    operand? g input = some r := by
  cases input with
  | nil => cases h
  | cons a rest =>
    simp only [operand?] at h ⊢
    split at h
    · rename_i hm
      rw [if_pos hm]
      obtain ⟨x, hx, h⟩ := Option.bind_eq_some_iff.mp h
      exact Option.bind_eq_some_iff.mpr ⟨x, hfg _ _ _ hx, h⟩
    · rename_i hm
      rw [if_neg hm]
      split at h
      · rename_i hp
        rw [if_pos hp]
        obtain ⟨x, hx, h⟩ := Option.bind_eq_some_iff.mp h
        exact Option.bind_eq_some_iff.mpr ⟨x, hfg _ _ _ hx, h⟩
      · rename_i hp
        rw [if_neg hp]
        exact h

theorem fuel_succ (fuel : Nat) :
    (∀ limit input r, subexp? fuel limit input = some r →
      subexp? (fuel + 1) limit input = some r) ∧
    (∀ limit left input r, climb? fuel limit left input = some r →
      climb? (fuel + 1) limit left input = some r) := by
  induction fuel with
  | zero =>
    refine ⟨fun limit input r h => ?_, fun limit left input r h => ?_⟩
    · rw [subexp?] at h; cases h
    · rw [climb?] at h; cases h
  | succ fuel ih =>
    obtain ⟨hsub, hclimb⟩ := ih
    refine ⟨fun limit input r h => ?_, fun limit left input r h => ?_⟩
    · rw [subexp?] at h ⊢
      obtain ⟨x, hx, h⟩ := Option.bind_eq_some_iff.mp h
      exact Option.bind_eq_some_iff.mpr ⟨x, operand?_mono hsub hx, hclimb _ _ _ _ h⟩
    · rw [climb?] at h ⊢
      cases ho : input.head?.bind Piece.binary? with
      | none => rw [ho] at h; exact h
      | some o =>
        rw [ho] at h
        by_cases hlt : limit < o.priority
        · simp only [if_pos hlt] at h ⊢
          obtain ⟨x, hx, h⟩ := Option.bind_eq_some_iff.mp h
          exact Option.bind_eq_some_iff.mpr ⟨x, hsub _ _ _ hx, hclimb _ _ _ _ h⟩
        · simp only [if_neg hlt] at h ⊢
          exact h

section
variable {fuel more limit : Nat} {left : Reading} {input : Pieces} {r : Reading × Pieces}

theorem subexp?_mono (h : subexp? fuel limit input = some r) (hle : fuel ≤ more) :
    subexp? more limit input = some r := by
  induction hle with
  | refl => exact h
  | step _ ih => exact (fuel_succ _).1 _ _ _ ih

theorem climb?_mono (h : climb? fuel limit left input = some r) (hle : fuel ≤ more) :
    climb? more limit left input = some r := by
  induction hle with
  | refl => exact h
  | step _ ih => exact (fuel_succ _).2 _ _ _ _ ih

theorem climb?_pos (h : climb? fuel limit left input = some r) : 0 < fuel := by
  cases fuel with
  | zero => rw [climb?] at h; cases h
  | succ fuel => exact Nat.succ_pos fuel

end

/-! ## Where reading stops -/

/-- Nothing here continues an operand, nor is it an operator that binds tighter than
`limit`. -/
def Stops (limit : Nat) (rest : Pieces) : Prop :=
  ∀ a ∈ rest.head?, a.isSuffix = false ∧ ∀ o ∈ a.binary?, o.priority ≤ limit

section
variable {limit looser : Nat} {rest : Pieces}

theorem Stops.mono (h : Stops limit rest) (hle : limit ≤ looser) : Stops looser rest :=
  fun a ha => ⟨(h a ha).1, fun o ho => Nat.le_trans ((h a ha).2 o ho) hle⟩

theorem stops_nil : Stops limit [] := by
  intro a ha
  cases ha

theorem stops_parenClose : Stops limit (.mark .parenClose :: rest) := by
  intro a ha
  cases ha
  exact ⟨rfl, fun o ho => by cases ho⟩

theorem stops_operator {o : Operator} (h : o.priority ≤ limit) :
    Stops limit (.operator o :: rest) := by
  intro a ha
  cases ha
  refine ⟨rfl, fun o' ho => ?_⟩
  cases ho
  exact h

theorem climb?_stops {fuel : Nat} (hf : 0 < fuel) (h : Stops limit rest) (left : Reading) :
    climb? fuel limit left rest = some (left, rest) := by
  obtain ⟨fuel, rfl⟩ := Nat.exists_eq_succ_of_ne_zero (Nat.ne_of_gt hf)
  rw [climb?]
  cases rest with
  | nil => rfl
  | cons a rest =>
    simp only [List.head?_cons, Option.bind_some]
    cases ho : a.binary? with
    | none => rfl
    | some o =>
      have hle := (h a rfl).2 o ho
      simp only [if_neg (Nat.not_lt.mpr hle)]

theorem Stops.restWidth_eq (h : Stops limit rest) : restWidth true 0 rest = 0 := by
  cases rest with
  | nil => rfl
  | cons a rest =>
    have ha := (h a rfl).1
    unfold restWidth
    split <;> simp_all [Piece.isSuffix]

end

end RustLua.Lua
