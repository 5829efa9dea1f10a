import RustLua.Proofs.Ir.Regular
import RustLua.Proofs.Lua.Dashes
import RustLua.Proofs.Lua.Label
import RustLua.Proofs.Lua.Rendered

/-! # Comments in rendered text

An operand on the right of a minus sign gets parentheses if it is a negative number.
It gets none if it is a product that starts with one, and the two minus signs meet.
The text of a regular program opens a comment there and nowhere else. -/
namespace RustLua

variable {op : Ir.BinaryOp} {o : Operator}

namespace Ir

/-- A number that is written with a minus sign. -/
def Item.isNegative : Item → Bool
  | .integer n => n < 0 && n != Int64.minValue
  | .decimal d => d.isNegative && !d.isNaN
  | _ => false

/-- The operators that bind tighter than plus and minus. -/
def BinaryOp.isProduct : BinaryOp → Bool
  | .mul | .div | .mod => true
  | _ => false

/-- A product, quotient or remainder, the first factor of which is written with a minus
sign. -/
def Item.isNegativeProduct : Item → Bool
  | .binary op lhs _ => op.isProduct && (lhs.isNegative || lhs.isNegativeProduct)
  | _ => false

/-- Somewhere in a node a negative product is subtracted. -/
def Item.Clashes (i : Item) : Prop :=
  ∃ b c lhs rhs, Occurs b i c (.binary .sub lhs rhs) ∧ rhs.isNegativeProduct = true

/-- The same of the node alone, without what stands below it. -/
def Item.clashesHere : Item → Bool
  | .binary .sub _ rhs => rhs.isNegativeProduct
  | _ => false

theorem Item.clashes_iff {i : Item} :
    i.Clashes ↔ i.clashesHere = true ∨ ∃ j, (∃ w, (w, j) ∈ i.parts) ∧ j.Clashes := by
  constructor
  · rintro ⟨b, c, lhs, rhs, ho, hn⟩
    cases ho with
    | self => exact .inl hn
    | part hm below => exact .inr ⟨_, ⟨_, hm⟩, _, _, _, _, below, hn⟩
  · rintro (hh | ⟨j, ⟨w, hm⟩, b, c, lhs, rhs, ho, hn⟩)
    · unfold Item.clashesHere at hh
      split at hh
      · exact ⟨false, false, _, _, .self, hh⟩
      · cases hh
    · obtain ⟨c', ho'⟩ := ho.anywhere (w.inLoop false)
      exact ⟨false, c', lhs, rhs, .part hm ho', hn⟩

theorem Item.Filled.part {i j : Item} {w : Way} (hf : i.Filled) (hm : (w, j) ∈ i.parts) :
    j.Filled :=
  hf.parts (w, j) hm

theorem Item.mem_parts_ifElif {cond j : Item} {body : List Item} {elifs : List Branch}
    {otherwise : Option (List Item)} :
    (∃ w, (w, j) ∈ (Item.ifElif cond body elifs otherwise).parts) ↔ j = cond ∨ j ∈ body ∨
      (∃ b ∈ elifs, j = b.cond ∨ j ∈ b.body) ∨ j ∈ otherwise.getD [] := by
  constructor
  · rintro ⟨w, h⟩
    simp only [Item.parts, List.cons_append, List.mem_cons, List.mem_append, List.mem_map,
      List.mem_flatMap, Prod.mk.injEq] at h
    grind
  · intro h
    refine ⟨.inside, ?_⟩
    simp only [Item.parts, List.cons_append, List.mem_cons, List.mem_append, List.mem_map,
      List.mem_flatMap, Prod.mk.injEq]
    grind

theorem Item.clashes_ifElif {cond : Item} {body : List Item} {elifs : List Branch}
    {otherwise : Option (List Item)} : (Item.ifElif cond body elifs otherwise).Clashes ↔
      cond.Clashes ∨ (∃ i ∈ body, i.Clashes) ∨
      (∃ b ∈ elifs, b.cond.Clashes ∨ ∃ i ∈ b.body, i.Clashes) ∨
      ∃ i ∈ otherwise.getD [], i.Clashes := by
  rw [Item.clashes_iff]
  simp only [Item.mem_parts_ifElif, Item.clashesHere]
  grind

theorem Item.clashes_missing : ¬Item.missing.Clashes := by
  rw [Item.clashes_iff]
  simp [Item.clashesHere, Item.parts]

end Ir

namespace Lua

open Ir (Item Branch Role)

/-! ## Shapes -/

attribute [local simp] Piece.Clean Piece.isDash

variable {s : Settings} {dash : Bool} {p q : Pieces} {c c' : Prop}

@[simp] theorem silent_nil : Silent [] := by simp [Silent]

@[simp] theorem silent_cons {a : Piece} :
    Silent (a :: p) ↔ (a.Clean ∧ a.isDash = false) ∧ Silent p :=
  List.forall_mem_cons

@[simp] theorem silent_append : Silent (p ++ q) ↔ Silent p ∧ Silent q :=
  List.forall_mem_append

theorem reads_parenthesized (h : Reads false p c) : Reads dash (parenthesized p) c :=
  h.between (p := [.mark .parenOpen]) (r := [.mark .parenClose]) (by simp) (by simp) (by simp)

theorem reads_local {name : Bytes} (hn : isWord name = true) (h : Reads false p c) :
    Reads dash (localPieces name p) c := by
  unfold localPieces
  exact h.between (by simp [hn]) (by simp) (by simp)

theorem reads_commaSeparated_cons {first : Pieces} {rest : List Pieces}
    (hf : Reads false first c) (hr : Reads false (commaSeparated rest) c') :
    Reads false (commaSeparated (first :: rest)) (c ∨ c') := by
  cases rest with
  | nil =>
    have hc' : ¬c' := fun h => by cases hr.meets h
    rw [commaSeparated, List.intercalate_singleton]
    exact hf.congr (by simp [hc'])
  | cons second rest =>
    rw [commaSeparated, List.intercalate_cons_cons]
    exact (hf.before (by simp)).append hr

theorem silent_commaSeparated {list : List Pieces} (h : ∀ p ∈ list, Silent p) :
    Silent (commaSeparated list) := by
  induction list with
  | nil => exact silent_nil
  | cons first rest ih =>
    obtain ⟨hf, hr⟩ := List.forall_mem_cons.mp h
    cases rest with
    | nil =>
      rw [commaSeparated, List.intercalate_singleton]
      exact hf
    | cons second rest =>
      rw [commaSeparated, List.intercalate_cons_cons, silent_append, silent_append]
      exact ⟨⟨hf, by simp⟩, ih hr⟩

theorem reads_functionPieces {params : List Bytes} (hp : ∀ n ∈ params, isWord n = true)
    (h : Reads false p c) : Reads dash (functionPieces params p) c := by
  have hparams : Silent (commaSeparated (params.map fun n => [.name n])) := by
    refine silent_commaSeparated fun l hl => ?_
    obtain ⟨n, hn, rfl⟩ := List.mem_map.mp hl
    simp [hp n hn]
  unfold functionPieces
  exact h.between (by simp [parenthesized, hparams]) (by simp [parenthesized]) (by simp)

/-- A loop of any kind: the words in front of its head matter as little as its label. -/
theorem reads_loop {depth : Nat} {words : Pieces} (hl : isWord (s.label depth) = true)
    (hw : Silent words) (hne : words ≠ []) (h : Reads false p c) (h' : Reads false q c') :
    Reads dash (words ++ p ++ loopPieces s depth q) (c ∨ c') := by
  have hbody : Reads false (loopPieces s depth q) c' := by
    unfold loopPieces
    exact h'.between (by simp) (by simp) (by simp [hl])
  rw [List.append_assoc]
  exact (h.append hbody).behind hw hne

theorem reads_branchPieces (h : Reads false p c) (h' : Reads false q c') :
    Reads dash (branchPieces p q) (c ∨ c') := by
  unfold branchPieces
  rw [List.append_assoc, List.append_assoc, ← List.append_assoc p]
  refine ((h.before ?_).append h').behind ?_ (by simp)
  · simp
  · simp

theorem reads_if {more last : Pieces} {c₁ c₂ : Prop} (h : Reads false p c) (h' : Reads false q c')
    (hm : Reads false more c₁) (hl : Reads false last c₂) :
    Reads dash ([Piece.keyword .ifKw] ++ branchPieces p q ++ more ++ last ++
      [Piece.blank, .keyword .endKw, .mark .semicolon]) (c ∨ c' ∨ c₁ ∨ c₂) := by
  rw [← or_assoc, List.append_assoc _ more, List.append_assoc _ (branchPieces p q)]
  exact ((reads_branchPieces h h').append (hm.append hl)).between (by simp) (by simp) (by simp)

theorem silent_externs {names : List Bytes} (hg : isWord s.globalTable = true)
    (hn : ∀ n ∈ names, isWord n = true) : Silent (names.flatMap (externPieces s)) := by
  intro a ha
  obtain ⟨n, hm, ha⟩ := List.mem_flatMap.mp ha
  have hs : Silent (externPieces s n) := by
    simp [externPieces, localPieces, hg, hn n hm]
  exact hs a ha

theorem reads_returnPieces {isLast : Bool} {value : Option Pieces}
    (h : ∀ v ∈ value, Reads false v c) (hn : value = none → ¬c) :
    Reads dash (returnPieces isLast value) c := by
  unfold returnPieces
  extract_lets inner
  have hinner (d : Bool) : Reads d inner c := by
    simp only [inner]
    cases value with
    | none =>
      have hs : Silent [.keyword .returnKw] := by simp
      exact (hs.reads (.inl (by simp))).congr (by simp [hn])
    | some v =>
      exact (h v rfl).behind (p := [.keyword .returnKw, .blank])
        (by simp) (by simp)
  split
  · exact (hinner dash).before (by simp)
  · exact (hinner false).between (by simp) (by simp) (by simp)

/-! ## Numbers -/

/-- Pieces that start with a minus sign clash with one in front of them. -/
theorem reads_minus (hs : Silent p) (hne : p ≠ []) :
    Reads dash (.mark .minus :: p) (dash = true) := by
  refine ⟨?_, ?_, ?_⟩
  · exact List.forall_mem_cons.mpr ⟨trivial, fun a ha => (hs a ha).1⟩
  · rintro rfl
    rfl
  · intro hd
    rw [Bool.not_eq_true] at hd
    have hrest : dashes? true p = some false := dashes?_silent hs (.inl hne)
    rw [hd]
    exact hrest

theorem silent_member {table field : String} (ht : isWord table = true)
    (hf : isWord field = true) : Silent (member table field) := by
  simp [member, ht, hf]

theorem silent_numeral {text : Bytes} (h : Neutral text) : Silent [.numeral text] := by
  simp [h]

theorem reads_integerPieces (n : Int64) :
    Reads dash (integerPieces n) (dash = true ∧ (Item.integer n).isNegative = true) := by
  unfold integerPieces
  split
  · rename_i hmin
    refine ((silent_member ?_ ?_).reads (.inl (by simp [member]))).congr ?_
    · decide
    · decide
    · simp [Item.isNegative, hmin]
  · rename_i hmin
    split
    · rename_i hneg
      refine (reads_minus (silent_numeral (neutral_decimal _)) (by simp)).congr ?_
      simp [Item.isNegative, hneg, hmin]
    · rename_i hneg
      refine ((silent_numeral (neutral_decimal _)).reads (.inl (by simp))).congr ?_
      simp [Item.isNegative, hneg]

/-- The sign and the size of a number. -/
theorem reads_signed {negative : Bool} (hs : Silent p) (hne : p ≠ []) :
    Reads dash ((if negative then [.mark .minus] else []) ++ p) (dash = true ∧ negative = true) := by
  cases negative with
  | true => exact (reads_minus hs hne).congr (by simp)
  | false => exact (hs.reads (.inl hne)).congr (by simp)

theorem reads_decimalPieces (d : Double) :
    Reads dash (decimalPieces d) (dash = true ∧ (Item.decimal d).isNegative = true) := by
  unfold decimalPieces
  split
  · rename_i hnan
    have hs : Silent [.mark .parenOpen, .numeral "0", .operator .div, .numeral "0",
        .mark .parenClose] := by
      have hzero : Neutral "0" := neutral_plain (by decide) (by decide)
      simp [hzero]
    exact (hs.reads (.inl (by simp))).congr (by simp [Item.isNegative, hnan])
  · rename_i hnan
    have hneg : (Item.decimal d).isNegative = d.isNegative := by simp [Item.isNegative, hnan]
    rw [hneg]
    extract_lets sign size
    have hsize : size.isNegative = false := by
      cases hd : d.isNegative <;> simp [size, hd, isNegative_neg]
    split
    · exact reads_signed (p := member "math" "huge") (silent_member (by decide) (by decide))
        (by simp [member])
    · exact reads_signed (silent_numeral (neutral_text hsize)) (by simp)

/-! ## Operands -/

/-- Does a value start with a minus sign? -/
def leadsWithMinus : Item → Bool
  | .binary op lhs _ =>
    match Operator.ofIr? op with
    | some o => !needsParens o.level false lhs && leadsWithMinus lhs
    | none => false
  | i => i.isNegative

theorem level_of_isProduct (h : op.isProduct = true) :
    ∃ o, Operator.ofIr? op = some o ∧ o.level = Operator.mul.level := by
  cases op with
  | mul | div | mod => exact ⟨_, rfl, rfl⟩
  | _ => cases h

theorem level_of_not_isProduct (h : op.isProduct = false)
    (ho : Operator.ofIr? op = some o) : o.level ≤ Operator.sub.level := by
  cases op with
  | mul | div | mod => cases h
  | _ => cases ho <;> decide

/-- What starts with a minus sign on the left of a product is a negative number or a
product that starts with one. -/
theorem leads_factor : ∀ i : Item,
    (!needsParens Operator.mul.level false i && leadsWithMinus i) =
      (i.isNegative || i.isNegativeProduct)
  | .binary op lhs rhs => by
    have ih := leads_factor lhs
    have hneg : (Item.binary op lhs rhs).isNegative = false := rfl
    rw [needsParens, leadsWithMinus, hneg, Item.isNegativeProduct]
    cases hp : op.isProduct with
    | true =>
      obtain ⟨o, ho, hl⟩ := level_of_isProduct hp
      simp [ho, hl, ih]
    | false =>
      cases ho : Operator.ofIr? op with
      | none => simp
      | some o =>
        have hl : o.level < Operator.mul.level :=
          Nat.lt_of_le_of_lt (level_of_not_isProduct hp ho) (by decide)
        simp [hl]
  | .integer n | .decimal d => by
    simp [needsParens, leadsWithMinus, Item.isNegativeProduct]
  | .missing | .function _ _ _ | .varDecl _ _ | .varSet _ _ | .externs _ | .mod _ _ | .breakLoop
  | .continueLoop | .returnValue _ | .ifElif _ _ _ _ | .whileLoop _ _ | .forRange _ _ _ _ _
  | .forIn _ _ _ | .call _ _ | .ident _ | .bool _ | .string _ | .closure _ _ | .array _
  | .format _ _ _ => by
    simp [needsParens, leadsWithMinus, Item.isNegative, Item.isNegativeProduct]

/-- A subtrahend without parentheses that starts with a minus sign is a negative product. -/
theorem leads_subtrahend (i : Item) :
    (!needsParens Operator.sub.level true i && leadsWithMinus i) = i.isNegativeProduct := by
  cases i with
  | binary op lhs rhs =>
    have h := leads_factor lhs
    rw [needsParens, leadsWithMinus, Item.isNegativeProduct]
    cases hp : op.isProduct with
    | true =>
      obtain ⟨o, ho, hl⟩ := level_of_isProduct hp
      have hne : ¬ Operator.mul.level < Operator.sub.level ∧
          Operator.mul.level ≠ Operator.sub.level := by decide
      simp [ho, hl, h, hne]
    | false =>
      cases ho : Operator.ofIr? op with
      | none => simp
      | some o =>
        have hl := level_of_not_isProduct hp ho
        rcases Nat.lt_or_eq_of_le hl with hlt | heq
        · simp [hlt]
        · simp [heq]
  | integer n =>
    simp only [needsParens, leadsWithMinus, Item.isNegative, Item.isNegativeProduct]
    cases decide (n < 0) <;> simp
  | decimal d =>
    simp only [needsParens, leadsWithMinus, Item.isNegative, Item.isNegativeProduct]
    cases d.isNegative <;> simp
  | _ => simp [needsParens, leadsWithMinus, Item.isNegative, Item.isNegativeProduct]

/-- Behind anything but a minus sign it does not matter what a value starts with. -/
theorem reads_start {leads : Prop} (h : ∀ dash, Reads dash p (c ∨ (dash = true ∧ leads))) :
    Reads false p c :=
  (h false).congr (by simp)

theorem reads_operand {parens leads : Bool}
    (h : ∀ dash, Reads dash p (c ∨ (dash = true ∧ leads = true))) :
    Reads dash (if parens then parenthesized p else p)
      (c ∨ (dash = true ∧ (!parens && leads) = true)) := by
  cases parens with
  | true => exact (reads_parenthesized (reads_start h)).congr (by simp)
  | false => exact (h dash).congr (by simp)

/-- What stands between an operator and its right operand matters only for minus. -/
theorem reads_binary {right : Pieces} {leads : Bool} (hl : Reads dash p c)
    (hr : ∀ dash, Reads dash right (c' ∨ (dash = true ∧ leads = true))) :
    Reads dash (p ++ [Piece.operator o] ++ right) (c ∨ c' ∨ (o = .sub ∧ leads = true)) := by
  by_cases ho : o = .sub
  · subst ho
    exact (hl.append_dash (o := .operator .sub) rfl trivial (hr true)).congr (by simp)
  · have hs : Silent [.operator o] := by
      cases o <;> simp_all [Piece.Clean, Piece.isDash]
    exact ((hl.before hs).append (hr false)).congr (by simp [ho])

/-! ## Nodes -/

/-- Settings whose names are words. -/
structure Settings.Words (s : Settings) : Prop where
  globalTable : isWord s.globalTable = true
  label : ∀ depth, isWord (s.label depth) = true

theorem regular_of_valuePieces {i : Item} (hp : ValuePieces s i p) (hr : i.Regular .statement) :
    i.Regular .value := by
  cases hp <;> cases hr <;> assumption

theorem ne_missing_of_valuePieces {i : Item} (hp : ValuePieces s i p) : i ≠ .missing := by
  cases hp <;> simp

/-- The minus signs of a node meet in the node itself or in one of its parts. -/
theorem Reads.node {i : Item} (h : Reads dash p c)
    (hc : c ↔ i.clashesHere = true ∨ ∃ j, (∃ w, (w, j) ∈ i.parts) ∧ j.Clashes) :
    Reads dash p i.Clashes :=
  h.congr (hc.trans Item.clashes_iff.symm)

theorem Reads.value {i : Item} (h : Reads dash p c) (hl : leadsWithMinus i = false)
    (hc : c ↔ i.clashesHere = true ∨ ∃ j, (∃ w, (w, j) ∈ i.parts) ∧ j.Clashes) :
    Reads dash p (i.Clashes ∨ (dash = true ∧ leadsWithMinus i = true)) :=
  (h.node hc).congr (by simp [hl])

theorem reads_callee {func : Item}
    (h : ∀ dash, Reads dash p (func.Clashes ∨ (dash = true ∧ leadsWithMinus func = true))) :
    Reads dash (if isCallable func then p else parenthesized p) func.Clashes := by
  split
  · rename_i hc
    have hleads : leadsWithMinus func = false := by
      unfold isCallable at hc
      split at hc
      · rfl
      · rfl
      · cases hc
    exact (h dash).congr (by simp [hleads])
  · exact reads_parenthesized ((h false).congr (by simp))

theorem reads_option {o : Option Pieces} (h : (∀ v ∈ o, Reads false v c) ∧ (o = none → ¬c)) :
    Reads false (commaSeparated o.toList) c := by
  cases o with
  | none => exact (silent_nil.reads (.inr rfl)).congr (by simp [h.2 rfl])
  | some v =>
    rw [Option.toList_some, commaSeparated, List.intercalate_singleton]
    exact h.1 v rfl

theorem clashesHere_binary (ho : Operator.ofIr? op = some o)
    (lhs rhs : Item) : (Item.binary op lhs rhs).clashesHere = true ↔
      o = .sub ∧ (!needsParens o.level true rhs && leadsWithMinus rhs) = true := by
  by_cases h : o = .sub
  · subst h
    have hop : op = .sub := by cases op <;> cases ho; rfl
    rw [leads_subtrahend, hop]
    simp [Item.clashesHere]
  · have hhere : (Item.binary op lhs rhs).clashesHere = false := by
      cases op with
      | sub => cases ho; exact absurd rfl h
      | _ => rfl
    simp [hhere, h]

theorem clashes_binary {lhs rhs : Item} :
    (Item.binary op lhs rhs).Clashes ↔
      (Item.binary op lhs rhs).clashesHere = true ∨ lhs.Clashes ∨ rhs.Clashes := by
  rw [Item.clashes_iff]
  simp [Item.parts, or_and_right, exists_or]

/-- All slots of a filled format together name all its values. -/
theorem exists_slot_iff {values : List Item} {P : Item → Prop} :
    (∃ k ∈ Ir.slotNumbers values.length, ∃ v, values[k.toNat - 1]? = some v ∧ P v) ↔
      ∃ v ∈ values, P v := by
  constructor
  · rintro ⟨k, _, v, hv, h⟩
    exact ⟨v, List.mem_of_getElem? hv, h⟩
  · rintro ⟨v, hv, h⟩
    obtain ⟨k, hk, rfl⟩ := List.mem_iff_getElem.mp hv
    refine ⟨(k : Int) + 1, Ir.mem_slotNumbers.mpr (by omega), _, ?_, h⟩
    rw [show ((k : Int) + 1).toNat - 1 = k by omega]
    exact List.getElem?_eq_getElem hk

attribute [local simp] Item.parts Item.clashesHere Item.isNegative leadsWithMinus

mutual

theorem value_reads (hw : s.Words) : ∀ {i : Item} {p : Pieces}, ValuePieces s i p →
    i.Regular .value → i.Filled →
      ∀ dash, Reads dash p (i.Clashes ∨ (dash = true ∧ leadsWithMinus i = true))
  | .ident name, _, .ident, hreg, _, dash => by
    cases hreg with
    | ident hn =>
      have hs : Silent [.name name] := by simp [hn]
      exact (hs.reads (.inl (by simp))).value rfl (by simp)
  | .bool value, _, .bool, _, _, dash => by
    have hs (k : Keyword) : Silent [.keyword k] := by simp
    exact ((hs _).reads (.inl (by simp))).value rfl (by simp)
  | .integer n, _, .integer, _, _, dash => by
    refine (reads_integerPieces n).congr ?_
    rw [Item.clashes_iff]
    simp
  | .decimal d, _, .decimal, _, _, dash => by
    refine (reads_decimalPieces d).congr ?_
    rw [Item.clashes_iff]
    simp
  | .string text, _, .string, _, _, dash => by
    have hs : Silent [.literal (quote text)] := by
      simp [neutral_quote]
    exact (hs.reads (.inl (by simp))).value rfl (by simp)
  | .call func args, _, .call hf ha, hreg, hfilled, dash => by
    cases hreg with
    | call hfr har =>
      have hfunc := value_reads hw hf hfr (hfilled.part (w := .inside) (by simp))
      have hargs := list_reads hw ha har fun a hm =>
        hfilled.part (w := .inside) (by simp [hm])
      refine ((reads_callee hfunc).append (reads_parenthesized hargs)).value rfl ?_
      simp [or_and_right, exists_or]
  | .closure params body, _, .closure hb, hreg, hfilled, dash => by
    cases hreg with
    | closure hp hbr =>
      have hbody := body_reads hw hb hbr fun a hm =>
        hfilled.part (w := .functionBody) (by simp [hm])
      exact ((reads_functionPieces hp hbody).behind (p := [.keyword .functionKw]) (by simp)
        (by simp)).value rfl (by simp)
  | .array elements, _, .array he, hreg, hfilled, dash => by
    cases hreg with
    | array her =>
      have helems := list_reads hw he her fun a hm =>
        hfilled.part (w := .inside) (by simp [hm])
      exact (helems.between (by simp) (by simp) (by simp)).value rfl (by simp)
  | .binary op lhs rhs, _, .binary ho hl hr, hreg, hfilled, dash => by
    cases hreg with
    | binary _ _ hlr hrr =>
      have hleft := value_reads hw hl hlr (hfilled.part (w := .inside) (by simp))
      have hright := value_reads hw hr hrr (hfilled.part (w := .inside) (by simp))
      refine (reads_binary (reads_operand hleft) fun d => reads_operand hright).congr ?_
      rw [clashes_binary, clashesHere_binary ho, leadsWithMinus, ho]
      grind
  | .format fragments slots values, _, .format ha, hreg, hfilled, dash => by
    cases hreg with
    | format _ hs hv =>
      have hslots := slot_reads hw ha hv fun v hm =>
        hfilled.part (w := .inside) (by simp [hm])
      have hn : values.length = slots.length := (Item.filled_iff.mp hfilled).1
      rw [← hn] at hs
      have htemplate : Silent [.literal (template fragments)] := by
        simp [neutral_template]
      have hargs := reads_commaSeparated_cons (htemplate.reads (.inr rfl)) hslots
      refine ((reads_parenthesized hargs).behind (p := member "string" "format")
        (silent_member (by decide) (by decide)) (by simp [member])).value rfl ?_
      rw [hs, exists_slot_iff]
      simp

theorem list_reads (hw : s.Words) : ∀ {items : List Item} {list : List Pieces},
    ListPieces s items list → (∀ i ∈ items, i.Regular .value) → (∀ i ∈ items, i.Filled) →
      Reads false (commaSeparated list) (∃ i ∈ items, i.Clashes)
  | _, _, .nil, _, _ => (silent_nil.reads (.inr rfl)).congr (by simp)
  | _, _, .cons hf hr, hreg, hfilled => by
    obtain ⟨hreg₁, hreg₂⟩ := List.forall_mem_cons.mp hreg
    obtain ⟨hfilled₁, hfilled₂⟩ := List.forall_mem_cons.mp hfilled
    have hfirst := value_reads hw hf hreg₁ hfilled₁ false
    refine (reads_commaSeparated_cons hfirst (list_reads hw hr hreg₂ hfilled₂)).congr ?_
    simp

theorem slot_reads (hw : s.Words) : ∀ {values : List Item} {slots : List Int}
    {args : List Pieces}, SlotPieces s values slots args → (∀ v ∈ values, v.Regular .value) →
      (∀ v ∈ values, v.Filled) → Reads false (commaSeparated args)
        (∃ k ∈ slots, ∃ v, values[k.toNat - 1]? = some v ∧ v.Clashes)
  | _, _, _, .nil, _, _ => (silent_nil.reads (.inr rfl)).congr (by simp)
  | _, _, _, .cons hs hf hr, hreg, hfilled => by
    have hm := List.mem_of_getElem? hs
    have hfirst := value_reads hw hf (hreg _ hm) (hfilled _ hm) false
    refine (reads_commaSeparated_cons hfirst (slot_reads hw hr hreg hfilled)).congr ?_
    simp [hs]

theorem option_reads (hw : s.Words) : ∀ {i : Item} {o : Option Pieces}, OptionPieces s i o →
    (i ≠ .missing → i.Regular .value) → i.Filled →
      (∀ v ∈ o, Reads false v i.Clashes) ∧ (o = none → ¬i.Clashes)
  | _, _, .none, _, _ => ⟨by simp, fun _ => Item.clashes_missing⟩
  | _, _, .some hi, hreg, hfilled => by
    have hv := reads_start (value_reads hw hi (hreg (ne_missing_of_valuePieces hi)) hfilled)
    refine ⟨fun v hm => ?_, by simp⟩
    cases hm
    exact hv

theorem body_reads (hw : s.Words) : ∀ {depth : Nat} {endsBlock : Bool} {items : List Item}
    {p : Pieces}, BodyPieces s depth endsBlock items p → (∀ i ∈ items, i.Regular .statement) →
      (∀ i ∈ items, i.Filled) → Reads false p (∃ i ∈ items, i.Clashes)
  | _, _, _, _, .nil, _, _ => (silent_nil.reads (.inr rfl)).congr (by simp)
  | _, _, _, _, .cons hf hr, hreg, hfilled => by
    obtain ⟨hreg₁, hreg₂⟩ := List.forall_mem_cons.mp hreg
    obtain ⟨hfilled₁, hfilled₂⟩ := List.forall_mem_cons.mp hfilled
    have hfirst := statement_reads hw hf hreg₁ hfilled₁
    refine (hfirst.append (body_reads hw hr hreg₂ hfilled₂)).congr ?_
    simp

theorem elif_reads (hw : s.Words) : ∀ {depth : Nat} {elifs : List Branch} {p : Pieces},
    ElifPieces s depth elifs p → (∀ b ∈ elifs, b.cond.Regular .value) →
      (∀ b ∈ elifs, ∀ i ∈ b.body, i.Regular .statement) → (∀ b ∈ elifs, b.cond.Filled) →
      (∀ b ∈ elifs, ∀ i ∈ b.body, i.Filled) →
      Reads false p (∃ b ∈ elifs, b.cond.Clashes ∨ ∃ i ∈ b.body, i.Clashes)
  | _, _, _, .nil, _, _, _, _ => (silent_nil.reads (.inr rfl)).congr (by simp)
  | _, .mk cond body :: elifs, _, .cons hc hb hr, hcr, hbr, hcf, hbf => by
    rw [List.forall_mem_cons] at hcr hbr hcf hbf
    have hcond := reads_start (value_reads hw hc hcr.1 hcf.1)
    have hbody := body_reads hw hb hbr.1 hbf.1
    have hrest := elif_reads hw hr hcr.2 hbr.2 hcf.2 hbf.2
    rw [List.append_assoc]
    refine (((reads_branchPieces hcond hbody).append hrest).behind ?_ (by simp)).congr ?_
    · simp
    · simp [Branch.cond, Branch.body]

theorem else_reads (hw : s.Words) : ∀ {depth : Nat} {otherwise : Option (List Item)}
    {p : Pieces}, ElsePieces s depth otherwise p →
      (∀ last ∈ otherwise, ∀ i ∈ last, i.Regular .statement) →
      (∀ i ∈ otherwise.getD [], i.Filled) → Reads false p (∃ i ∈ otherwise.getD [], i.Clashes)
  | _, _, _, .none, _, _ => (silent_nil.reads (.inr rfl)).congr (by simp)
  | _, _, _, .some hb, hreg, hfilled =>
    (body_reads hw hb (hreg _ rfl) hfilled).behind (by simp) (by simp)

theorem statement_reads (hw : s.Words) : ∀ {depth : Nat} {isLast : Bool} {i : Item} {p : Pieces},
    StatementPieces s depth isLast i p → i.Regular .statement → i.Filled →
      Reads false p i.Clashes
  | _, _, _, _, .ofValue hi, hreg, hfilled =>
    reads_local (by decide)
      (reads_start (value_reads hw hi (regular_of_valuePieces hi hreg) hfilled))
  | _, _, _, _, .ofCall hi, hreg, hfilled =>
    (reads_start (value_reads hw hi (regular_of_valuePieces hi hreg) hfilled)).before
      (by simp)
  | _, _, .function name params body, _, .function hb, hreg, hfilled => by
    cases hreg with
    | ofValue h => cases h
    | function hn hp hbr =>
      have hbody := body_reads hw hb hbr fun a hm =>
        hfilled.part (w := .functionBody) (by simp [hm])
      exact ((reads_functionPieces hp hbody).between (by simp [hn]) (by simp) (by simp)).node
        (by simp)
  | _, _, .varDecl name value, _, .varDecl hv, hreg, hfilled => by
    cases hreg with
    | ofValue h => cases h
    | varDecl hn hvr =>
      have hvalue := reads_start (value_reads hw hv hvr
        (hfilled.part (w := .inside) (by simp)))
      exact (reads_local hn hvalue).node (by simp)
  | _, _, .varSet name value, _, .varSet hv, hreg, hfilled => by
    cases hreg with
    | ofValue h => cases h
    | varSet hn hvr =>
      have hvalue := reads_start (value_reads hw hv hvr
        (hfilled.part (w := .inside) (by simp)))
      exact (hvalue.between (by simp [hn]) (by simp) (by simp)).node (by simp)
  | _, _, .externs names, _, .externs, hreg, _ => by
    cases hreg with
    | ofValue h => cases h
    | externs _ hn =>
      exact ((silent_externs hw.globalTable hn).reads (.inr rfl)).node (by simp)
  | _, _, .mod name items, _, .mod hi, hreg, hfilled => by
    cases hreg with
    | ofValue h => cases h
    | mod hn hir =>
      have hitems := body_reads hw hi hir fun a hm =>
        hfilled.part (w := .inside) (by simp [hm])
      exact (hitems.behind (by simp [localPieces, hn]) (by simp [localPieces])).node (by simp)
  | _, _, _, _, .breakLoop _, _, _ => by
    have hs : Silent [.keyword .breakKw, .mark .semicolon] := by simp
    exact (hs.reads (.inr rfl)).node (by simp)
  | depth, _, _, _, .continueLoop _, _, _ => by
    have hs : Silent [.keyword .gotoKw, .blank, .name (s.label depth), .mark .semicolon] := by
      simp [hw.label depth]
    exact (hs.reads (.inr rfl)).node (by simp)
  | _, _, .returnValue value, _, .returnValue hv, hreg, hfilled => by
    cases hreg with
    | ofValue h => cases h
    | returnValue hvr =>
      obtain ⟨hsome, hnone⟩ :=
        option_reads hw hv hvr (hfilled.part (w := .inside) (by simp))
      exact (reads_returnPieces hsome hnone).node (by simp)
  | _, _, .ifElif cond body elifs otherwise, _, .ifElif hc hb he hl, hreg, hfilled => by
    cases hreg with
    | ofValue h => cases h
    | ifElif hcr hbr hecr hebr hlr =>
      have hchild (j : Item) (hj : j = cond ∨ j ∈ body ∨
          (∃ b ∈ elifs, j = b.cond ∨ j ∈ b.body) ∨ j ∈ otherwise.getD []) : j.Filled := by
        obtain ⟨w, hm⟩ := Item.mem_parts_ifElif.mpr hj
        exact hfilled.part hm
      have hcond := reads_start (value_reads hw hc hcr (hchild _ (.inl rfl)))
      have hbody := body_reads hw hb hbr fun a hm => hchild a (.inr (.inl hm))
      have helifs := elif_reads hw he hecr hebr
        (fun b hm => hchild _ (.inr (.inr (.inl ⟨b, hm, .inl rfl⟩))))
        (fun b hm a ha => hchild _ (.inr (.inr (.inl ⟨b, hm, .inr ha⟩))))
      have hlast := else_reads hw hl hlr fun a hm => hchild a (.inr (.inr (.inr hm)))
      exact (reads_if hcond hbody helifs hlast).congr Item.clashes_ifElif.symm
  | depth, _, .whileLoop cond body, _, .whileLoop hc hb, hreg, hfilled => by
    cases hreg with
    | ofValue h => cases h
    | whileLoop hcr hbr =>
      have hcond := reads_start (value_reads hw hc hcr
        (hfilled.part (w := .inside) (by simp)))
      have hbody := body_reads hw hb hbr fun a hm =>
        hfilled.part (w := .loopBody) (by simp [hm])
      refine (reads_loop (hw.label _) (by simp) (by simp) hcond hbody).node ?_
      simp [or_and_right, exists_or]
  | depth, _, .forRange var min max step body, _, .forRange hmin hmax hs hb, hreg, hfilled => by
    cases hreg with
    | ofValue h => cases h
    | forRange hn hminr hmaxr hsr hbr =>
      have hlower := reads_start (value_reads hw hmin hminr
        (hfilled.part (w := .inside) (by simp)))
      have hupper := reads_start (value_reads hw hmax hmaxr
        (hfilled.part (w := .inside) (by simp)))
      have hstep := option_reads hw hs hsr (hfilled.part (w := .inside) (by simp))
      have hbody := body_reads hw hb hbr fun a hm =>
        hfilled.part (w := .loopBody) (by simp [hm])
      have hhead := reads_commaSeparated_cons hlower
        (reads_commaSeparated_cons hupper (reads_option hstep))
      refine (reads_loop (hw.label _) (by simp [hn]) (by simp) hhead hbody).node ?_
      simp [or_and_right, exists_or, or_assoc]
  | depth, _, .forIn var iterated body, _, .forIn hi hb, hreg, hfilled => by
    cases hreg with
    | ofValue h => cases h
    | forIn hn hir hbr =>
      have hiter := reads_start (value_reads hw hi hir
        (hfilled.part (w := .inside) (by simp)))
      have hbody := body_reads hw hb hbr fun a hm =>
        hfilled.part (w := .loopBody) (by simp [hm])
      refine (reads_loop (hw.label _) (by simp [hn]) (by simp) hiter hbody).node ?_
      simp [or_and_right, exists_or]

end

end Lua
end RustLua
