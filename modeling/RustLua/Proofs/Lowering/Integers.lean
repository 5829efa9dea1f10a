import Mathlib.Algebra.Group.Nat.Defs
import Mathlib.Algebra.Ring.Int.Defs
import RustLua.Lowering.Basic
import RustLua.Lua.Render
import RustLua.Proofs.Bytes.Digits
import RustLua.Proofs.Parser.Operators
import RustLua.Proofs.Token.Integers

/-! # Integers from their spelling to Lua

Lowering takes the underscores out of a spelling, then the base mark, then all from the first
letter of a type on. What is left are the digits, so that the number is the one that was
spelled, if a word holds it. Lua reads the same integer from the text that is written for
it. -/
namespace RustLua.Lua

/-- The integer that a numeral, or the name of the least one, stands for in Lua. A numeral that
is too great for an integer stands for none. -/
def integerOf? (text : Bytes) : Option Int :=
  if text = Bytes.ofString "math.mininteger" then some Word.least
  else (Bytes.integerValue? text).filter fun value => value.natAbs < Word.signedLimit

theorem text_integerPieces {i : Int64} (h : i ≠ Int64.minValue) :
    Pieces.text (integerPieces i) = Bytes.integer i.toInt := by
  have hsign : i < 0 ↔ i.toInt < 0 := Int64.lt_iff_toInt_lt
  rw [integerPieces, if_neg h]
  cases hi : i.toInt with
  | ofNat m =>
    rw [if_neg (by rw [hsign, hi]; exact Int.not_lt.mpr (Int.natCast_nonneg m))]
    exact List.append_nil _
  | negSucc m =>
    rw [if_pos (by rw [hsign, hi]; exact Int.negSucc_lt_zero m)]
    exact congrArg (_ :: ·) (List.append_nil _)

/-- Lua reads an integer back. -/
theorem integerOf?_integerPieces (i : Int64) :
    integerOf? (Pieces.text (integerPieces i)) = some i.toInt := by
  by_cases h : i = Int64.minValue
  · subst h
    decide
  · have hne : Bytes.integer i.toInt ≠ Bytes.ofString "math.mininteger" := by
      intro he
      have hnone : Bytes.integerValue? (Bytes.ofString "math.mininteger") = none := by decide
      rw [← he, Bytes.integerValue?_integer] at hnone
      cases hnone
    have hbound : i.toInt.natAbs < Word.signedLimit := by
      have hlow := Int64.le_toInt i
      have hhigh := Int64.toInt_lt i
      have hleast : i.toInt ≠ -2 ^ 63 := fun he => h (Int64.toInt_inj.mp he)
      rw [Word.signedLimit]
      omega
    rw [text_integerPieces h, integerOf?, if_neg hne, Bytes.integerValue?_integer]
    simp [Option.filter, hbound]

end RustLua.Lua

namespace RustLua.Lowering

open RustLua.Tree
open Token (SpellsInteger Numeral integerTypes baseMarks EndsNumber signed integerTokens tokensFrom)

/-- The tree of an integer with or without a minus sign. -/
def integerExpr (negative : Bool) (text : Bytes) (pos : Pos) : Expr :=
  if negative then .unary .neg (.lit ⟨.int, text, pos.after Ascii.minus⟩) pos
  else .lit ⟨.int, text, pos⟩

section
variable {n : Nat} {text type : Bytes}

theorem filter_type (ht : type ∈ integerTypes) : type.filter (· != Ascii.underscore) = type := by
  have hall : ∀ type ∈ integerTypes, type.filter (· != Ascii.underscore) = type := by decide
  exact hall type ht

/-- Digits are no part of a type. -/
theorem withoutSuffix_append {digits : Bytes} (hne : digits ≠ [])
    (hd : ∀ b ∈ digits, Token.isHexMark b = true) (ht : type ∈ integerTypes) :
    withoutSuffix (digits ++ type) = digits := by
  have hkeep : ∀ b ∈ digits, (b != Bytes.ofAscii 'i' && b != Bytes.ofAscii 'u') = true := by
    intro b hb
    have hmark := hd b hb
    rw [Bool.and_eq_true, bne_iff_ne, bne_iff_ne]
    constructor
    · rintro rfl; cases hmark
    · rintro rfl; cases hmark
  have hcut : (digits ++ type).takeWhile
      (fun b => b != Bytes.ofAscii 'i' && b != Bytes.ofAscii 'u') = digits := by
    rw [List.takeWhile_append_of_pos hkeep]
    rcases Token.integerTypes_cases ht with rfl | ⟨b, inner, rfl, rfl | rfl, -⟩
    · exact List.append_nil _
    · exact List.append_nil _
    · exact List.append_nil _
  rw [withoutSuffix, hcut, if_neg (by simpa using hne)]

theorem basedText_plain (h : ∀ b ∈ text, Token.isBaseMark b = false) :
    basedText text = (10, text) := by
  rw [basedText]
  split
  next hlong =>
    have hmark := h (text.getD 1 0) (by
      rw [List.getD_eq_getElem _ _ (by omega)]
      exact List.getElem_mem _)
    simp only [Token.isBaseMark, Bool.or_eq_false_iff, beq_eq_false_iff_ne] at hmark
    simp only [hmark.1.1, hmark.1.2, hmark.2, if_false]
  next => rfl

theorem basedText_mark {base : Nat} {mark : UInt8} {digits : Bytes}
    (hm : (base, mark) ∈ baseMarks) (hd : digits ≠ []) :
    basedText (Bytes.ofAscii '0' :: mark :: digits) = (base, digits) := by
  have hlong : 2 < (Bytes.ofAscii '0' :: mark :: digits).length := by
    have := List.length_pos_iff.mpr hd
    simp only [List.length_cons]
    omega
  simp only [baseMarks, List.mem_cons, Prod.mk.injEq, List.not_mem_nil, or_false] at hm
  rw [basedText, if_pos ⟨hlong, rfl⟩]
  obtain ⟨rfl, rfl⟩ | ⟨rfl, rfl⟩ | ⟨rfl, rfl⟩ := hm
  · rfl
  · rfl
  · rfl

/-- What is left of a numeral and a type is worth the number. -/
theorem digitsValue?_withoutSuffix {base : Nat} (h : Numeral base n text) (hb : base ≤ 16)
    (ht : type ∈ integerTypes) :
    Bytes.digitsValue? base (withoutSuffix (text.filter (· != Ascii.underscore) ++ type)) =
      some n := by
  have hvalue := h.digitsValue? hb
  have hne : text.filter (· != Ascii.underscore) ≠ [] := by
    intro he
    rw [he] at hvalue
    cases hvalue
  rw [withoutSuffix_append hne (fun b hb' => h.isHexMark hb b (List.mem_filter.mp hb').1) ht,
    hvalue]

theorem digitsValue?_basedText (h : SpellsInteger n text) :
    ∃ base digits, basedText (text.filter (· != Ascii.underscore)) = (base, digits) ∧
      Bytes.digitsValue? base (withoutSuffix digits) = some n := by
  cases h with
  | decimal h ht =>
    refine ⟨10, _, ?_, digitsValue?_withoutSuffix h (by decide) ht⟩
    rw [List.filter_append, filter_type ht]
    refine basedText_plain (List.forall_mem_append.mpr ⟨fun b hb => ?_, ?_⟩)
    · exact Token.not_isBaseMark_of_isDigitMark (h.isDigitMark b (List.mem_filter.mp hb).1)
    · have hall : ∀ type ∈ integerTypes, ∀ b ∈ type, Token.isBaseMark b = false := by
        decide +kernel
      exact hall _ ht
  | @based base text type mark hm k h ht =>
    have hall : ∀ p ∈ baseMarks, p.1 ≤ 16 ∧ (p.2 != Ascii.underscore) = true := by decide
    obtain ⟨h16, hmark⟩ := hall _ hm
    have hne : text.filter (· != Ascii.underscore) ++ type ≠ [] := by
      intro he
      have hvalue := h.digitsValue? h16
      rw [(List.append_eq_nil_iff.mp he).1] at hvalue
      cases hvalue
    refine ⟨base, _, ?_, digitsValue?_withoutSuffix h h16 ht⟩
    have hfilter : (Bytes.ofAscii '0' :: mark ::
        (List.replicate k Ascii.underscore ++ text ++ type)).filter (· != Ascii.underscore) =
        Bytes.ofAscii '0' :: mark :: (text.filter (· != Ascii.underscore) ++ type) := by
      rw [List.filter_cons_of_pos (by decide),
        List.filter_cons_of_pos (p := (· != Ascii.underscore)) hmark, List.filter_append,
        List.filter_append, filter_type ht, List.filter_replicate_of_neg (by decide),
        List.nil_append]
    rw [hfilter, basedText_mark hm hne]

/-- The number with its sign. -/
def signedValue (negative : Bool) (n : Nat) : Int := if negative then -n else n

/-- A spelling has a value exactly if a word holds its number. -/
theorem integerValue?_of_spells (h : SpellsInteger n text) (negative : Bool) :
    (-2 ^ 63 ≤ signedValue negative n ∧ signedValue negative n < 2 ^ 63 →
      ∃ i, i.toInt = signedValue negative n ∧ integerValue? text negative = some i) ∧
    (¬ (-2 ^ 63 ≤ signedValue negative n ∧ signedValue negative n < 2 ^ 63) →
      integerValue? text negative = none) := by
  obtain ⟨base, digits, hbased, hvalue⟩ := digitsValue?_basedText h
  simp only [integerValue?, hbased, hvalue]
  cases negative with
  | false =>
    simp only [signedValue, Bool.false_eq_true, if_false]
    constructor
    · intro hrange
      have hlt : n < Word.signedLimit := by rw [Word.signedLimit]; omega
      exact ⟨_, Int64.toInt_ofNat_of_lt (by omega), if_pos hlt⟩
    · intro hrange
      exact if_neg (by rw [Word.signedLimit]; omega)
  | true =>
    simp only [signedValue, if_true]
    constructor
    · intro hrange
      have hle : n ≤ Word.signedLimit := by rw [Word.signedLimit]; omega
      exact ⟨_, Int64.toInt_ofInt_of_le (by omega) (by omega), if_pos hle⟩
    · intro hrange
      exact if_neg (by rw [Word.signedLimit]; omega)

/-- A sign in front of an integer is part of it. -/
theorem lowerExpr_integerExpr (place : Place) (negative : Bool) (text : Bytes) (pos : Pos) :
    lowerExpr place (integerExpr negative text pos) =
      match integerValue? text negative with
      | some i => .ok (place.finish (.integer i))
      | none =>
        illFormed (if negative then pos.after Ascii.minus else pos) (.integerRange text) := by
  cases negative with
  | false =>
    simp only [integerExpr, Bool.false_eq_true, if_false, lowerExpr, literal]
    cases integerValue? text false <;> rfl
  | true =>
    simp only [integerExpr, if_true, lowerExpr, literal, true_or]
    cases integerValue? text true <;> rfl

theorem expression_integerTokens {negative : Bool} {pos : Pos} {s : Parser.State} {x : Token}
    {rest : List Token} {depth : Nat} (hs : s.ahead = integerTokens negative text pos ++ x :: rest)
    (hx : x.kind = .semicolon) (hd : 2 < depth) :
    ∃ t, (Parser.grammar depth).expression s = some (integerExpr negative text pos, t) ∧
      Parser.Behind s (x :: rest) t := by
  obtain ⟨d, rfl⟩ : ∃ d, depth = d + 1 := ⟨depth - 1, by omega⟩
  have hlength : (integerTokens negative text pos).length ≤ d := by
    cases negative with
    | false => exact show 1 ≤ d by omega
    | true => exact show 2 ≤ d by omega
  have hspelled : Parser.Spelled (integerExpr negative text pos)
      (integerTokens negative text pos) := by
    cases negative with
    | false => exact .number (x := ⟨.intLit, text, text, pos⟩) rfl
    | true =>
      exact .unary (x := ⟨.minus, [Ascii.minus], [Ascii.minus], pos⟩) .neg rfl
        (.number (x := ⟨.intLit, text, text, pos.after Ascii.minus⟩) rfl)
  have hgrouped : Parser.Grouped (integerExpr negative text pos) := by
    cases negative with
    | false => trivial
    | true => exact ⟨rfl, trivial⟩
  obtain ⟨t, ht, hr⟩ := (hspelled.reads hgrouped).1.expression hspelled hlength hs (.inl hx)
  exact ⟨t, hr, ht⟩

/-- Whatever spelling an integer has, with or without a minus sign: it is one token; in front
of a semicolon it is an expression of its own; this is lowered to the integer that was spelled,
from which Lua reads the same integer, if a word holds it, and is refused as ill-formed
otherwise. -/
theorem integer_spelling_denotes (h : SpellsInteger n text) (negative : Bool) :
    (∃ last, Token.tokenize (signed negative text) =
      .ok (integerTokens negative text Pos.start ++ [Token.endToken last])) ∧
    (∀ rest pos more, EndsNumber rest →
      tokensFrom 0 rest (pos.afterAll (signed negative text)) = .ok more →
      tokensFrom 0 (signed negative text ++ rest) pos =
        .ok (integerTokens negative text pos ++ more)) ∧
    (∀ (s : Parser.State) x rest pos depth,
      s.ahead = integerTokens negative text pos ++ x :: rest → x.kind = .semicolon → 2 < depth →
      ∃ t, (Parser.grammar depth).expression s = some (integerExpr negative text pos, t) ∧
        Parser.Behind s (x :: rest) t) ∧
    (-2 ^ 63 ≤ signedValue negative n ∧ signedValue negative n < 2 ^ 63 →
      ∃ i : Int64, i.toInt = signedValue negative n ∧
        (∀ place pos, lowerExpr place (integerExpr negative text pos) =
          .ok (place.finish (.integer i))) ∧
        ∀ s, ∃ pieces, Lua.renderItem s .value (.integer i) = .ok pieces ∧
          Lua.integerOf? pieces.text = some (signedValue negative n)) ∧
    (¬ (-2 ^ 63 ≤ signedValue negative n ∧ signedValue negative n < 2 ^ 63) →
      ∀ place pos, lowerExpr place (integerExpr negative text pos) =
        illFormed (if negative then pos.after Ascii.minus else pos) (.integerRange text)) := by
  obtain ⟨hfits, hexceeds⟩ := integerValue?_of_spells h negative
  refine ⟨h.tokenize_eq negative, fun rest pos more hr hmore => h.tokens negative hr hmore,
    fun s x rest pos depth hs hx hd => expression_integerTokens hs hx hd, fun hrange => ?_,
    fun hrange place pos => ?_⟩
  · obtain ⟨i, hi, hvalue⟩ := hfits hrange
    refine ⟨i, hi, fun place pos => ?_, fun s => ⟨Lua.integerPieces i, rfl, ?_⟩⟩
    · rw [lowerExpr_integerExpr, hvalue]
    · rw [Lua.integerOf?_integerPieces, hi]
  · rw [lowerExpr_integerExpr, hexceeds hrange]

end

/-- The number that a word holds only with a sign. -/
theorem integer_spelling_denotes_least :
    SpellsInteger (2 ^ 63) "9223372036854775808i64" ∧
      (∃ i : Int64, i.toInt = signedValue true (2 ^ 63) ∧
        (∀ place pos, lowerExpr place (integerExpr true "9223372036854775808i64" pos) =
          .ok (place.finish (.integer i))) ∧
        ∀ s, ∃ pieces, Lua.renderItem s .value (.integer i) = .ok pieces ∧
          Lua.integerOf? pieces.text = some (signedValue true (2 ^ 63))) ∧
      ∀ place pos, lowerExpr place (integerExpr false "9223372036854775808i64" pos) =
        illFormed pos (.integerRange "9223372036854775808i64") := by
  have hspelling : Bytes.ofString "9223372036854775808i64" =
      Bytes.decimal (2 ^ 63) ++ Bytes.ofString "i64" := by decide
  have h : SpellsInteger (2 ^ 63) "9223372036854775808i64" :=
    hspelling ▸ .decimal (Token.numeral_decimal _) (by decide)
  obtain ⟨-, -, -, hfits, -⟩ := integer_spelling_denotes h true
  obtain ⟨-, -, -, -, hexceeds⟩ := integer_spelling_denotes h false
  exact ⟨h, hfits (by decide), hexceeds (by decide)⟩

end RustLua.Lowering
