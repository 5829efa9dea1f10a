import Mathlib.Data.Int.Range
import RustLua.Proofs.Lowering.Integers
import RustLua.Proofs.Lua.Grouping

/-! # Ranges as numeric loops

A loop over a range of integers is a numeric loop of Lua, whose limit belongs to it. An end
that does not belong to the range is therefore lowered by one, and this subtraction wraps
around below the least integer: a range in front of the least integer is empty, but its loop
runs up to the greatest one. Every other range is visited as it is, for the variable of a loop
never wraps around. -/
namespace RustLua.Lowering

/-! ## Ranges -/

/-- The first element and every `n`-th behind it. -/
def everyNth {α : Type} (n : Nat) : List α → List α
  | [] => []
  | x :: xs => x :: everyNth n (xs.drop (n - 1))
termination_by xs => xs.length
decreasing_by simp only [List.length_drop, List.length_cons]; omega

/-- The distance of neighbours. -/
def stepSize (step : Option Int64) : Nat := step.elim 1 fun n => n.toInt.toNat

/-- The values of a range of integers, with or without its end. -/
def rangeValues (first last : Int64) (inclusive : Bool) (step : Option Int64) : List Int :=
  everyNth (stepSize step) (Int.range first.toInt (last.toInt + if inclusive then 1 else 0))

section
variable {m n : Int}

theorem range_of_le (h : n ≤ m) : Int.range m n = [] := by
  have hlength : (n - m).toNat = 0 := by omega
  simp [Int.range, hlength]

theorem range_of_lt (h : m < n) : Int.range m n = m :: Int.range (m + 1) n := by
  have hlength : (n - m).toNat = (n - (m + 1)).toNat + 1 := by omega
  rw [Int.range, Int.range, hlength, List.range_succ_eq_map, List.map_cons, List.map_map]
  congr 1
  · omega
  · refine List.map_congr_left fun k _ => ?_
    simp only [Function.comp_apply]
    omega

theorem drop_range (k : Nat) : (Int.range m n).drop k = Int.range (m + k) n := by
  induction k generalizing m with
  | zero => simp
  | succ k ih =>
    by_cases h : m < n
    · rw [range_of_lt h, List.drop_succ_cons, ih]
      congr 1
      omega
    · rw [range_of_le (by omega), range_of_le (by omega), List.drop_nil]

/-- Behind the first value the range goes on one step further. -/
theorem everyNth_range {k : Nat} (hk : 0 < k) (h : m < n) :
    everyNth k (Int.range m n) = m :: everyNth k (Int.range (m + k) n) := by
  have hstep : m + 1 + ((k - 1 : Nat) : Int) = m + k := by omega
  rw [range_of_lt h, everyNth, drop_range, hstep]

end

end RustLua.Lowering

namespace RustLua.Lua

open Lowering (everyNth everyNth_range range_of_le stepSize)
open Ir (Item)

/-! ## Numeric loops of Lua -/

/-- The integer that Lua computes. Sums, differences and products wrap around. -/
def Reading.integer? : Reading → Option Int64
  | .operand pieces => (integerOf? pieces.text).map Int64.ofInt
  | .minus e => e.integer?.map (- ·)
  | .binary .add left right => do return (← left.integer?) + (← right.integer?)
  | .binary .sub left right => do return (← left.integer?) - (← right.integer?)
  | .binary .mul left right => do return (← left.integer?) * (← right.integer?)
  | .binary _ _ _ => none

/-- At most so many expressions with commas between them, and what is left. -/
def expressions? : Nat → Pieces → Option (List Reading × Pieces)
  | 0, _ => none
  | n + 1, input => do
    let (e, rest) ← subexp? (input.length + 1) 0 input
    match rest with
    | .mark .comma :: rest =>
      let (es, rest) ← expressions? n rest
      return (e :: es, rest)
    | _ => return ([e], rest)

/-- The expressions in the head of a numeric loop. -/
def control? : Pieces → Option (List Reading)
  | .keyword .forKw :: .name _ :: .mark .assign :: input =>
    match expressions? 3 input with
    | some (es, .keyword .doKw :: _) => some es
    | _ => none
  | _ => none

/-- Is this value behind the limit, in the direction of the step? -/
def isPast (limit step value : Int64) : Prop := if 0 < step then limit < value else value < limit

instance (limit step value : Int64) : Decidable (isPast limit step value) :=
  inferInstanceAs (Decidable (if 0 < step then limit < value else value < limit))

/-- Counting from a value to a limit. Where the next value would not be an integer of 64 bits,
counting ends. -/
def countFrom (limit step value : Int64) : List Int64 :=
  if step = 0 ∨ isPast limit step value then []
  else value ::
    if (value + step).toInt = value.toInt + step.toInt then countFrom limit step (value + step)
    else []
termination_by
  if 0 < step then (limit.toInt - value.toInt + 1).toNat else (value.toInt - limit.toInt + 1).toNat
decreasing_by
  rename_i hgo hnext
  obtain ⟨hzero, hpast⟩ := not_or.mp hgo
  have hne : step.toInt ≠ 0 := fun h => hzero (Int64.toInt_inj.mp h)
  simp only [isPast, Int64.lt_iff_toInt_lt, Int64.toInt_zero] at hpast ⊢
  split at hpast
  · rename_i hup
    rw [if_pos hup, if_pos hup]
    omega
  · rename_i hdown
    rw [if_neg hdown, if_neg hdown]
    omega

/-- The values that the numeric loop at the beginning of some pieces visits. A step of zero is
an error. -/
def visited? (pieces : Pieces) : Option (List Int64) := do
  let values ← (← control? pieces.tokens).mapM Reading.integer?
  match values with
  | [first, limit] => return countFrom limit 1 first
  | [first, limit, step] => if step = 0 then none else return countFrom limit step first
  | _ => none

/-- Counting up visits a range and its end. -/
theorem countFrom_eq_everyNth {limit step : Int64} (hs : 0 < step) (value : Int64) :
    (countFrom limit step value).map Int64.toInt =
      everyNth step.toInt.toNat (Int.range value.toInt (limit.toInt + 1)) := by
  have hpos : 0 < step.toInt := Int64.lt_iff_toInt_lt.mp hs
  have hpast (value : Int64) :
      (step = 0 ∨ isPast limit step value) ↔ limit.toInt < value.toInt := by
    have hzero : step ≠ 0 := fun h => by rw [h] at hs; exact absurd hs (by decide)
    simp [hzero, isPast, hs, Int64.lt_iff_toInt_lt]
  induction value using countFrom.induct limit step with
  | case1 value h =>
    rw [countFrom, if_pos h, range_of_le (by have := (hpast value).mp h; omega)]
    simp [everyNth]
  | case2 value h ih =>
    have hle : value.toInt < limit.toInt + 1 := by have := mt (hpast value).mpr h; omega
    rw [countFrom, if_neg h, everyNth_range (by omega) hle, Int.toNat_of_nonneg (by omega),
      List.map_cons]
    congr 1
    by_cases hnext : (value + step).toInt = value.toInt + step.toInt
    · rw [if_pos hnext, ih hnext, hnext]
    · -- the sum is no integer of 64 bits, and so it is behind every limit
      have hout : limit.toInt + 1 ≤ value.toInt + step.toInt := by
        by_contra hin
        refine hnext ?_
        have hlow := Int64.le_toInt value
        have hhigh := Int64.toInt_lt limit
        rw [Int64.toInt_add]
        exact Int.bmod_eq_of_le (by omega) (by omega)
      rw [if_neg hnext, range_of_le hout]
      simp [everyNth]

/-! ## The head of a loop -/

/-- Where a list of expressions ends. -/
theorem stops_mark_or_do {limit : Nat} {a : Piece} {rest : Pieces}
    (h : a = .mark .comma ∨ a = .keyword .doKw) : Stops limit (a :: rest) := by
  intro b hb
  cases hb
  rcases h with rfl | rfl
  · exact ⟨rfl, nofun⟩
  · exact ⟨rfl, nofun⟩

theorem ReadsAt.subexp?_eq {priority : Nat} {p rest : Pieces} {e : Reading}
    (h : ReadsAt priority p e) (hpos : 0 < priority) (hstop : ∀ limit, Stops limit rest) :
    subexp? ((p ++ rest).length + 1) 0 (p ++ rest) = some (e, rest) := by
  have hread := h 0 rest 1 _ hpos (hstop _) (climb?_stops Nat.one_pos (hstop _) e)
  refine subexp?_mono hread ?_
  rw [List.length_append]
  omega

/-- Pieces that read as an expression of this value. -/
def ReadsInteger (p : Pieces) (n : Int64) : Prop :=
  ∃ priority e, 0 < priority ∧ ReadsAt priority p e ∧ e.integer? = some n

/-- Expressions are read one by one up to the keyword behind them. -/
theorem expressions?_commaSeparated {list : List Pieces} {values : List Int64} {n : Nat}
    (h : List.Forall₂ ReadsInteger list values) (hne : list ≠ []) (hn : list.length ≤ n)
    (rest : Pieces) :
    ∃ es, expressions? n (commaSeparated list ++ .keyword .doKw :: rest) =
      some (es, .keyword .doKw :: rest) ∧ es.mapM Reading.integer? = some values := by
  induction h generalizing n with
  | nil => exact absurd rfl hne
  | @cons p value list values hp hrest ih =>
    obtain ⟨priority, e, hpos, hread, hvalue⟩ := hp
    obtain ⟨n, rfl⟩ : ∃ k, n = k + 1 := ⟨n - 1, by simp only [List.length_cons] at hn; omega⟩
    cases hrest with
    | nil =>
      have hstop (limit : Nat) : Stops limit (.keyword .doKw :: rest) := stops_mark_or_do (.inr rfl)
      have hone : commaSeparated [p] = p := List.intercalate_singleton
      refine ⟨[e], ?_, by simp [hvalue]⟩
      rw [hone, expressions?, hread.subexp?_eq hpos hstop]
      rfl
    | @cons q _ list _ hq hrest =>
      obtain ⟨es, hes, hvalues⟩ := ih (by simp) (by simpa using hn)
      have hsplit : commaSeparated (p :: q :: list) ++ .keyword .doKw :: rest =
          p ++ .mark .comma :: (commaSeparated (q :: list) ++ .keyword .doKw :: rest) := by
        simp [commaSeparated, List.intercalate_cons_cons]
      have hstop (limit : Nat) : Stops limit (.mark .comma ::
          (commaSeparated (q :: list) ++ .keyword .doKw :: rest)) := stops_mark_or_do (.inl rfl)
      refine ⟨e :: es, ?_, by simp [hvalue, hvalues]⟩
      rw [hsplit, expressions?, hread.subexp?_eq hpos hstop]
      simp [hes]

theorem integerPieces_tail {n : Int64} (hneg : n < 0) (hmin : n ≠ Int64.minValue) :
    (integerPieces n).tail = integerPieces (-n) := by
  have hn : n.toInt < 0 := Int64.lt_iff_toInt_lt.mp hneg
  have hlow := Int64.le_toInt n
  have hleast : n.toInt ≠ -2 ^ 63 := fun h => hmin (Int64.toInt_inj.mp h)
  have hminus : (-n).toInt = -n.toInt := by
    rw [Int64.toInt_neg]
    exact Int.bmod_eq_of_le (by omega) (by omega)
  have hpos : ¬ -n < 0 := by rw [Int64.lt_iff_toInt_lt, hminus, Int64.toInt_zero]; omega
  have hne : -n ≠ Int64.minValue := fun h => by
    have hvalue : (-n).toInt = -2 ^ 63 := by rw [h]; rfl
    omega
  rw [integerPieces, if_neg hmin, if_pos hneg, integerPieces, if_neg hne, if_neg hpos, hminus,
    Int.natAbs_neg, List.tail_cons]

/-- Lua computes an integer from its own text. -/
theorem integer?_operandReading (n : Int64) :
    (operandReading (.integer n) (integerPieces n)).integer? = some n := by
  have hoperand (n : Int64) : Reading.integer? (.operand (integerPieces n)) = some n := by
    rw [Reading.integer?, integerOf?_integerPieces, Option.map_some, Int64.ofInt_toInt]
  rw [operandReading]
  split
  · rename_i h
    rw [integerPieces_tail h.1 h.2, Reading.integer?, hoperand, Option.map_some, Int64.neg_neg]
  · exact hoperand n

theorem readsInteger_integer (n : Int64) : ReadsInteger (integerPieces n) n :=
  ⟨_, _, by decide, readsAt_integer n, integer?_operandReading n⟩

/-- Whether the difference is computed here or by Lua, it wraps around. -/
theorem readsInteger_minusOne (s : Settings) (n : Int64) :
    ∃ p, renderItem s .value (Lowering.minusOne (.integer n)) = .ok p ∧
      ReadsInteger p.tokens (n - 1) := by
  by_cases hmin : n = Int64.minValue
  · subst hmin
    have hread := readsAt_binary (o := .sub) (readsAt_integer Int64.minValue) (readsAt_integer 1)
      (by decide) (by decide)
    refine ⟨_, rfl, _, _, by decide, hread, ?_⟩
    rw [Reading.integer?, integer?_operandReading, integer?_operandReading]
    rfl
  · rw [Lowering.minusOne, if_neg hmin]
    refine ⟨integerPieces (n - 1), rfl, ?_⟩
    rw [tokens_integerPieces]
    exact readsInteger_integer (n - 1)

/-- The step of a loop, which may be left out. -/
def stepItem : Option Int64 → Item
  | none => .missing
  | some n => .integer n

theorem optionalValue_stepItem (s : Settings) (step : Option Int64) :
    optionalValue (stepItem step) (renderItem s .value (stepItem step)) =
      .ok (step.map integerPieces) := by
  cases step with
  | none => rfl
  | some n => rfl

/-- A loop whose head is made of integers and a limit is rendered if its body is, and counts
from the first value to that of the limit. -/
theorem visited?_renderItem {s : Settings} {depth : Nat} {isLast : Bool} {name : Bytes}
    {first n : Int64} {limit : Item} {step : Option Int64} {body : List Item} {p inner : Pieces}
    (hlimit : renderItem s .value limit = .ok p) (hread : ReadsInteger p.tokens n)
    (hstep : ∀ k ∈ step, 0 < k) (hbody : renderBody s (depth + 1) false body = .ok inner) :
    ∃ pieces, renderItem s (.statement depth isLast)
        (.forRange name (.integer first) limit (stepItem step) body) = .ok pieces ∧
      visited? pieces = some (countFrom n (step.getD 1) first) := by
  let list : List Pieces := [integerPieces first, p] ++ (step.map integerPieces).toList
  let pieces : Pieces := [.keyword .forKw, .blank, .name name, .blank, .mark .assign, .blank] ++
    commaSeparated list ++ loopPieces s (depth + 1) inner
  have hrender : renderItem s (.statement depth isLast)
      (.forRange name (.integer first) limit (stepItem step) body) = .ok pieces := by
    have hfirst : renderItem s .value (.integer first) = .ok (integerPieces first) := rfl
    rw [renderItem, Place.statementOnly, hfirst, hlimit, optionalValue_stepItem, hbody]
    rfl
  have hvalues :
      List.Forall₂ ReadsInteger (list.map Pieces.tokens) ([first, n] ++ step.toList) := by
    have hinteger (k : Int64) : ReadsInteger (integerPieces k).tokens k := by
      rw [tokens_integerPieces]
      exact readsInteger_integer k
    cases step with
    | none => exact .cons (hinteger first) (.cons hread .nil)
    | some k => exact .cons (hinteger first) (.cons hread (.cons (hinteger k) .nil))
  have htokens : pieces.tokens = .keyword .forKw :: .name name :: .mark .assign ::
      (commaSeparated (list.map Pieces.tokens) ++ .keyword .doKw ::
        (inner.tokens ++ [.mark .colons, .name (s.label (depth + 1)), .mark .colons,
          .keyword .endKw, .mark .semicolon])) := by
    simp [pieces, loopPieces, tokens_commaSeparated]
  have hlength : (list.map Pieces.tokens).length ≤ 3 := by cases step <;> simp [list]
  obtain ⟨es, hes, hmap⟩ := expressions?_commaSeparated hvalues (by simp [list]) hlength
    (inner.tokens ++ [.mark .colons, .name (s.label (depth + 1)), .mark .colons, .keyword .endKw,
      .mark .semicolon])
  refine ⟨pieces, hrender, ?_⟩
  rw [visited?, htokens, control?, hes]
  simp only [Option.bind_eq_bind, Option.bind_some, hmap]
  cases step with
  | none => rfl
  | some k =>
    have hk : k ≠ 0 := fun h => absurd (hstep k rfl) (by rw [h]; decide)
    simp [hk]

end RustLua.Lua

namespace RustLua.Lowering

open RustLua.Tree
open Lua (Settings stepItem renderItem renderBody visited? countFrom)
open Token (SpellsInteger)

/-! ## Loops over ranges -/

/-- An integer as it is written: with a minus sign or not, in parentheses or not. -/
inductive Denotes : Expr → Int → Prop
  | literal {n : Nat} {text : Bytes} (h : SpellsInteger n text) (negative : Bool) (pos : Pos) :
      Denotes (integerExpr negative text pos) (signedValue negative n)
  | paren {e : Expr} {i : Int} (h : Denotes e i) (pos : Pos) : Denotes (.paren e pos) i

theorem Denotes.lowerExpr_eq {e : Expr} {n : Int64} (h : Denotes e n.toInt) :
    lowerExpr .value e = .ok (.integer n) := by
  generalize hi : n.toInt = i at h
  induction h with
  | @literal k text h negative pos =>
    have hlow := Int64.le_toInt n
    have hhigh := Int64.toInt_lt n
    obtain ⟨m, hm, hvalue⟩ := (integerValue?_of_spells h negative).1 (by omega)
    obtain rfl : m = n := Int64.toInt_inj.mp (hm.trans hi.symm)
    rw [lowerExpr_integerExpr, hvalue]
    rfl
  | paren h pos ih =>
    rw [lowerExpr, if_neg (by decide), ih hi]
    rfl

/-- A range between two integers as a loop iterates over it: by itself or in steps, in
parentheses or not. -/
inductive Iterates (first last : Int64) (inclusive : Bool) : Option Int64 → Expr → Prop
  | range {lower upper : Expr} (hl : Denotes lower first.toInt) (hu : Denotes upper last.toInt)
      (pos : Pos) :
      Iterates first last inclusive none (.range (some lower) (some upper) inclusive pos)
  | step {e size : Expr} {n : Int64} (h : Iterates first last inclusive none e)
      (hs : Denotes size n.toInt) (pos : Pos) :
      Iterates first last inclusive (some n) (.methodCall e "step_by" [size] pos)
  | paren {step : Option Int64} {e : Expr} (h : Iterates first last inclusive step e) (pos : Pos) :
      Iterates first last inclusive step (.paren e pos)

/-- The limit of the loop over a range. -/
def limitItem (last : Int64) (inclusive : Bool) : Ir.Item :=
  if inclusive then .integer last else minusOne (.integer last)

section
variable {first last : Int64} {inclusive : Bool} {step : Option Int64} {e : Expr}

theorem Iterates.isRange_eq (h : Iterates first last inclusive step e) (hs : step = none) :
    isRange e = true := by
  induction h with
  | range => rfl
  | step => cases hs
  | paren _ _ ih => exact ih hs

theorem Iterates.lowerExpr_eq (h : Iterates first last inclusive step e) :
    lowerExpr .iterated e =
      .ok (.forRange [] (.integer first) (limitItem last inclusive) (stepItem step) []) := by
  induction h with
  | range hl hu pos =>
    rw [lowerExpr, if_pos rfl, lowerBound, lowerBound, hl.lowerExpr_eq, hu.lowerExpr_eq]
    cases inclusive <;> rfl
  | step h hs pos ih =>
    rw [lowerExpr, if_pos ⟨rfl, rfl, h.isRange_eq rfl⟩, ih, hs.lowerExpr_eq]
    rfl
  | paren _ pos ih => rw [lowerExpr, if_pos rfl, ih]

/-- What Lua computes as the limit. -/
def limitValue (last : Int64) (inclusive : Bool) : Int64 := if inclusive then last else last - 1

theorem readsInteger_limitItem (s : Settings) (last : Int64) (inclusive : Bool) :
    ∃ p, renderItem s .value (limitItem last inclusive) = .ok p ∧
      Lua.ReadsInteger p.tokens (limitValue last inclusive) := by
  cases inclusive with
  | false => exact Lua.readsInteger_minusOne s last
  | true =>
    refine ⟨Lua.integerPieces last, rfl, ?_⟩
    rw [Lua.tokens_integerPieces]
    exact Lua.readsInteger_integer last

theorem toInt_limitValue (h : inclusive = true ∨ last ≠ Int64.minValue) :
    (limitValue last inclusive).toInt + 1 = last.toInt + if inclusive then 1 else 0 := by
  cases inclusive with
  | true => rfl
  | false =>
    have hlow := Int64.le_toInt last
    have hhigh := Int64.toInt_lt last
    have hleast : last.toInt ≠ -2 ^ 63 := fun he => h.resolve_left nofun (Int64.toInt_inj.mp he)
    have hone : (1 : Int64).toInt = 1 := rfl
    have hsub : (last - 1).toInt = last.toInt - 1 := by
      rw [Int64.toInt_sub, hone]
      exact Int.bmod_eq_of_le (by omega) (by omega)
    simp only [limitValue, Bool.false_eq_true, if_false, hsub]
    omega

theorem map_countFrom (hs : ∀ n ∈ step, 0 < n) (limit : Int64) :
    (countFrom limit (step.getD 1) first).map Int64.toInt =
      everyNth (stepSize step) (Int.range first.toInt (limit.toInt + 1)) := by
  cases step with
  | none => exact Lua.countFrom_eq_everyNth (by decide) first
  | some n => exact Lua.countFrom_eq_everyNth (hs n rfl) first

/-- A loop over a range of integers, in steps or not, lowers to a numeric loop. It is rendered
if its body is, and then Lua visits the values of the range in their order. The exception is a
range without its end that ends at the least integer: it has no values, but Lua visits all from
the first one up to the greatest integer. -/
theorem range_loop_visits (h : Iterates first last inclusive step e) (hs : ∀ n ∈ step, 0 < n) :
    (∀ place pattern stmts blockPos label pos,
      lowerExpr place (.forLoop pattern e (.mk stmts blockPos) label pos) =
        place.statementOnly "for" pos do
          let name ← bindingName .loopVariable pattern
          let body ← lowerStmts false stmts
          return .forRange name (.integer first) (limitItem last inclusive) (stepItem step)
            (collect body)) ∧
    ∀ s depth isLast name body inner, renderBody s (depth + 1) false body = .ok inner →
      ∃ pieces values, renderItem s (.statement depth isLast) (.forRange name (.integer first)
          (limitItem last inclusive) (stepItem step) body) = .ok pieces ∧
        visited? pieces = some values ∧
        (inclusive = true ∨ last ≠ Int64.minValue →
          values.map Int64.toInt = rangeValues first last inclusive step) ∧
        (inclusive = false → last = Int64.minValue →
          rangeValues first last inclusive step = [] ∧
          values.map Int64.toInt = everyNth (stepSize step) (Int.range first.toInt (2 ^ 63))) := by
  refine ⟨fun place pattern stmts blockPos label pos => ?_, ?_⟩
  · rw [lowerExpr, h.lowerExpr_eq]
    rfl
  · intro s depth isLast name body inner hbody
    obtain ⟨p, hlimit, hread⟩ := readsInteger_limitItem s last inclusive
    obtain ⟨pieces, hpieces, hvisited⟩ := Lua.visited?_renderItem hlimit hread hs hbody
    refine ⟨pieces, _, hpieces, hvisited, fun hend => ?_, fun hexclusive hleast => ⟨?_, ?_⟩⟩
    · rw [map_countFrom hs, toInt_limitValue hend, rangeValues]
    · subst hexclusive hleast
      have hlow := Int64.le_toInt first
      rw [rangeValues, range_of_le (by simpa using hlow), everyNth]
    · subst hexclusive hleast
      rw [map_countFrom hs]
      rfl

end

/-- Integers are spelled in decimal. -/
theorem denotes_decimal (negative : Bool) (n : Nat) (pos : Pos) :
    Denotes (integerExpr negative (Bytes.decimal n) pos) (signedValue negative n) :=
  .literal (List.append_nil (Bytes.decimal n) ▸ .decimal (Token.numeral_decimal n) (by decide))
    negative pos

/-- A range in steps, which its end does not belong to. -/
theorem range_loop_visits_steps :
    ∃ e, Iterates 0 10 false (some 3) e ∧
      lowerExpr .statement (.forLoop (.ident "i" false false ⟨1, 5⟩) e (.mk [] ⟨1, 29⟩) [] ⟨1, 1⟩) =
        .ok (.forRange "i" (.integer 0) (.integer 9) (.integer 3) []) ∧
      ∃ pieces values, renderItem {} (.statement 0 true)
          (.forRange "i" (.integer 0) (.integer 9) (.integer 3) []) = .ok pieces ∧
        visited? pieces = some values ∧ values.map Int64.toInt = [0, 3, 6, 9] := by
  have h : Iterates 0 10 false (some 3) _ :=
    .step (.paren (.range (denotes_decimal false 0 ⟨1, 11⟩) (denotes_decimal false 10 ⟨1, 14⟩)
      ⟨1, 11⟩) ⟨1, 10⟩) (denotes_decimal false 3 ⟨1, 26⟩) ⟨1, 10⟩
  obtain ⟨hlower, hvisits⟩ := range_loop_visits h (by simp)
  obtain ⟨pieces, values, hpieces, hvisited, hvalues, -⟩ := hvisits {} 0 true "i" [] [] rfl
  have hrange : rangeValues 0 10 false (some 3) = [0, 3, 6, 9] := by
    simp [rangeValues, stepSize, everyNth, range_of_lt, range_of_le]
  exact ⟨_, h, hlower .statement (.ident "i" false false ⟨1, 5⟩) [] ⟨1, 29⟩ [] ⟨1, 1⟩, pieces,
    values, hpieces, hvisited, (hvalues (.inr (by decide))).trans hrange⟩

/-- The range from the greatest integer up to the least one. -/
def aroundRange : Expr :=
  .range (some (integerExpr false (Bytes.decimal 9223372036854775807) ⟨1, 10⟩))
    (some (integerExpr true (Bytes.decimal 9223372036854775808) ⟨1, 31⟩)) false ⟨1, 10⟩

/-- A range without values whose loop is not empty in Lua. -/
theorem range_loop_wraps_around :
    Iterates Int64.maxValue Int64.minValue false none aroundRange ∧
      rangeValues Int64.maxValue Int64.minValue false none = [] ∧
      ∃ loop pieces, lowerExpr .statement
          (.forLoop (.ident "i" false false ⟨1, 5⟩) aroundRange (.mk [] ⟨1, 52⟩) [] ⟨1, 1⟩) =
            .ok loop ∧
        renderItem {} (.statement 0 true) loop = .ok pieces ∧
        visited? pieces = some [Int64.maxValue] := by
  have h : Iterates Int64.maxValue Int64.minValue false none aroundRange :=
    .range (denotes_decimal false 9223372036854775807 ⟨1, 10⟩)
      (denotes_decimal true 9223372036854775808 ⟨1, 31⟩) ⟨1, 10⟩
  obtain ⟨p, hlimit, hread⟩ := readsInteger_limitItem {} Int64.minValue false
  obtain ⟨pieces, hpieces, hvisited⟩ : ∃ pieces, renderItem {} (.statement 0 true)
      (.forRange "i" (.integer Int64.maxValue) (limitItem Int64.minValue false) (stepItem none)
        []) = .ok pieces ∧ visited? pieces = some (countFrom Int64.maxValue 1 Int64.maxValue) :=
    Lua.visited?_renderItem hlimit hread nofun rfl
  have hcount : countFrom Int64.maxValue 1 Int64.maxValue = [Int64.maxValue] := by
    rw [countFrom, if_neg (by decide), if_neg (by decide)]
  refine ⟨h, ?_, _, pieces, ?_, hpieces, hvisited.trans (congrArg some hcount)⟩
  · rw [rangeValues, range_of_le (by decide), everyNth]
  · rw [lowerExpr, h.lowerExpr_eq]
    rfl

end RustLua.Lowering
