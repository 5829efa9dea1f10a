import RustLua.Proofs.Ir.Seats
import RustLua.Proofs.Lua.Slots

/-! # What is rendered, and as what

A node is used as a value, or as a statement that is in a loop body of its function or not.
Which of its seats are rendered with it, and as what, depends on the node alone (`Shows`).
Where rendering gives pieces, it gives pieces for all that it shows, and they stand in the
pieces of the whole. -/
namespace RustLua.Lua

open Ir (Item Branch Seat Program)

/-! ## Uses -/

/-- What a node is used as. A statement is in a loop body of its nearest function or not. -/
inductive Use where
  | value
  | statement (inLoop : Bool)
deriving DecidableEq, Repr

def Use.inLoop : Use → Bool
  | .value => false
  | .statement inLoop => inLoop

def Place.use : Place → Use
  | .value => .value
  | .statement depth _ => .statement (depth ≠ 0)

end RustLua.Lua

namespace RustLua.Ir

open Lua (Use)

/-- What stands in a seat is used as this, if its node is in a loop or not. -/
def Seat.use (inLoop : Bool) : Seat → Use
  | .item body _ => .statement (body.elim inLoop (Step.inLoop inLoop))
  | .required _ | .optional _ => .value

/-- What is rendered with a node: what stands in its seats, but no seat that is rightly empty,
and only those values of a format that a slot of it names. -/
structure Item.Shows (x : Item) (seat : Seat) (y : Item) : Prop where
  seated : (seat, y) ∈ x.seats
  present : ∀ step, seat = .optional step → y ≠ .missing
  named : ∀ fragments slots values i, x = .format fragments slots values →
    seat = .required (.formatValue i) → (i : Int) + 1 ∈ slots

/-- `Reaches u x v y`: if `x` is rendered and used as `u`, then so is `y`, used as `v`. -/
inductive Reaches : Use → Item → Use → Item → Prop
  | self {u : Use} {x : Item} : Reaches u x u x
  | down {u v : Use} {x y z : Item} {seat : Seat} (h : x.Shows seat y)
      (hz : Reaches (seat.use u.inLoop) y v z) : Reaches u x v z

/-- A node is rendered with the program and used as this. -/
def Program.Shows (program : Program) (u : Use) (x : Item) : Prop :=
  ∃ i ∈ program.items, Reaches (.statement false) i u x

theorem Item.shows_item {x y : Item} {body : Option Step} {i : Nat}
    (h : (.item body i, y) ∈ x.seats) : x.Shows (.item body i) y :=
  ⟨h, fun _ => Seat.noConfusion, fun _ _ _ _ _ => Seat.noConfusion⟩

theorem Item.shows_required {x y : Item} {c : Child} (h : (.required c, y) ∈ x.seats)
    (hc : ∀ i, c ≠ .formatValue i) : x.Shows (.required c) y :=
  ⟨h, fun _ => Seat.noConfusion, fun _ _ _ i _ he => absurd (Seat.required.inj he) (hc i)⟩

theorem Item.shows_optional {x y : Item} {step : Step} (h : (.optional step, y) ∈ x.seats)
    (hy : y ≠ .missing) : x.Shows (.optional step) y :=
  ⟨h, fun _ _ => hy, fun _ _ _ _ _ => Seat.noConfusion⟩

end RustLua.Ir

namespace RustLua.Lua

open Ir (Item Branch Seat Program)

/-! ## Pieces inside pieces -/

section
variable {s : Settings} {place : Place} {pieces p : Pieces} {depth : Nat}

theorem infix_commaSeparated {list : List Pieces} (h : p ∈ list) : p <:+: commaSeparated list := by
  induction list with
  | nil => cases h
  | cons first rest ih =>
    cases rest with
    | nil =>
      obtain rfl := List.mem_singleton.mp h
      exact ⟨[], [], by simp [commaSeparated]⟩
    | cons second rest =>
      rw [commaSeparated, List.intercalate_cons_cons]
      rcases List.mem_cons.mp h with rfl | h
      · exact ⟨[], _, (List.append_assoc _ _ _).symm⟩
      · exact (ih h).trans (List.suffix_append _ _).isInfix

theorem infix_functionPieces (params : List Bytes) : pieces <:+: functionPieces params pieces :=
  List.infix_append _ _ _

theorem infix_parenthesized : pieces <:+: parenthesized pieces :=
  List.infix_append [_] _ _

theorem infix_localPieces (name : Bytes) : pieces <:+: localPieces name pieces :=
  List.infix_append _ _ _

theorem infix_loopPieces : pieces <:+: loopPieces s depth pieces :=
  List.infix_append _ _ _

theorem infix_branchPieces (cond body : Pieces) :
    cond <:+: branchPieces cond body ∧ body <:+: branchPieces cond body := by
  constructor
  · exact ⟨[.blank], [.blank, .keyword .thenKw, .blank] ++ body, by simp [branchPieces]⟩
  · exact (List.suffix_append _ _).isInfix

theorem infix_ifPieces (cond body elifs last : Pieces) :
    branchPieces cond body <:+: [.keyword .ifKw] ++ branchPieces cond body ++ elifs ++ last ++
        [.blank, .keyword .endKw, .mark .semicolon] ∧
      elifs <:+: [.keyword .ifKw] ++ branchPieces cond body ++ elifs ++ last ++
        [.blank, .keyword .endKw, .mark .semicolon] := by
  constructor
  · exact ⟨[.keyword .ifKw], elifs ++ last ++ [.blank, .keyword .endKw, .mark .semicolon], by simp⟩
  · exact ⟨_, last ++ [.blank, .keyword .endKw, .mark .semicolon], by rw [← List.append_assoc]⟩

theorem infix_returnPieces (isLast : Bool) : pieces <:+: returnPieces isLast (some pieces) := by
  cases isLast with
  | true => exact List.infix_append [_, _] pieces _
  | false =>
    have hinner : pieces <:+: [.keyword .returnKw, .blank] ++ pieces :=
      (List.suffix_append _ _).isInfix
    exact hinner.trans (List.infix_append [Piece.keyword .doKw, .blank] _ _)

theorem infix_finishValue : pieces <:+: place.finishValue pieces := by
  cases place with
  | value => exact List.infix_rfl
  | statement => exact infix_localPieces _

theorem infix_finishCall : pieces <:+: place.finishCall pieces := by
  cases place with
  | value => exact List.infix_rfl
  | statement => exact (List.prefix_append _ _).isInfix

theorem infix_ite {more : Pieces} (c : Bool) (h : p <:+: pieces) (hm : p <:+: more) :
    p <:+: if c then pieces else more := by
  cases c with
  | true => exact h
  | false => exact hm

end

/-! ## Nodes inside nodes -/

/-- What rendering a node gives where it is used as `u`. -/
def Gives (s : Settings) (u : Use) (y : Item) (r : Except Gap Pieces) : Prop :=
  ∃ place : Place, place.use = u ∧ renderItem s place y = r

/-- The pieces hold those of a node that is used as `u`. -/
def Carries (s : Settings) (pieces : Pieces) (u : Use) (y : Item) : Prop :=
  ∃ p, Gives s u y (.ok p) ∧ p <:+: pieces

section
variable {s : Settings} {place : Place} {pieces more p : Pieces} {u : Use} {x y : Item}
  {items : List Item} {depth : Nat}

theorem Carries.mono (h : Carries s pieces u y) (hm : pieces <:+: more) : Carries s more u y := by
  obtain ⟨p, hp, hi⟩ := h
  exact ⟨p, hp, hi.trans hm⟩

theorem carries_value (h : renderItem s .value y = .ok p) : Carries s p .value y :=
  ⟨p, ⟨.value, rfl, h⟩, List.infix_rfl⟩

theorem carries_renderValues {list : List Pieces} (h : renderValues s items = .ok list)
    (hy : y ∈ items) : Carries s (commaSeparated list) .value y := by
  suffices ∃ p ∈ list, renderItem s .value y = .ok p by
    obtain ⟨p, hp, hr⟩ := this
    exact (carries_value hr).mono (infix_commaSeparated hp)
  induction items generalizing list with
  | nil => cases hy
  | cons first rest ih =>
    simp only [renderValues, bind_eq_ok, pure_eq_ok] at h
    obtain ⟨p, hp, ps, hps, rfl⟩ := h
    rcases List.mem_cons.mp hy with rfl | hy
    · exact ⟨p, by simp, hp⟩
    · obtain ⟨q, hq, hr⟩ := ih hps hy
      exact ⟨q, by simp [hq], hr⟩

theorem carries_renderBody {endsBlock : Bool} (h : renderBody s depth endsBlock items = .ok pieces)
    (hy : y ∈ items) : Carries s pieces (.statement (depth ≠ 0)) y := by
  induction items generalizing pieces with
  | nil => cases hy
  | cons first rest ih =>
    simp only [renderBody, bind_eq_ok, pure_eq_ok] at h
    obtain ⟨p, hp, ps, hps, rfl⟩ := h
    rcases List.mem_cons.mp hy with rfl | hy
    · exact ⟨p, ⟨.statement depth _, rfl, hp⟩, (List.prefix_append _ _).isInfix⟩
    · exact (ih hps hy).mono (List.suffix_append _ _).isInfix

theorem carries_renderElifs {elifs : List Branch} {b : Branch}
    (h : renderElifs s depth elifs = .ok pieces) (hb : b ∈ elifs) :
    Carries s pieces .value b.cond ∧
      ∀ y ∈ b.body, Carries s pieces (.statement (depth ≠ 0)) y := by
  induction elifs generalizing pieces with
  | nil => cases hb
  | cons first rest ih =>
    cases first with
    | mk cond body =>
      simp only [renderElifs, bind_eq_ok, pure_eq_ok] at h
      obtain ⟨p, hp, q, hq, ps, hps, rfl⟩ := h
      rcases List.mem_cons.mp hb with rfl | hb
      · have hs := List.infix_append [.blank, .keyword .elseifKw] (branchPieces p q) ps
        exact ⟨(carries_value hp).mono ((infix_branchPieces p q).1.trans hs),
          fun y hy => (carries_renderBody hq hy).mono ((infix_branchPieces p q).2.trans hs)⟩
      · have hs := (List.suffix_append
          ([.blank, .keyword .elseifKw] ++ branchPieces p q) ps).isInfix
        exact ⟨(ih hps hb).1.mono hs, fun y hy => ((ih hps hb).2 y hy).mono hs⟩

theorem carries_renderElse {otherwise : Option (List Item)}
    (h : renderElse s depth otherwise = .ok pieces) (hy : y ∈ otherwise.getD []) :
    Carries s pieces (.statement (depth ≠ 0)) y := by
  cases otherwise with
  | none => cases hy
  | some body =>
    simp only [renderElse, bind_eq_ok, pure_eq_ok] at h
    obtain ⟨p, hp, rfl⟩ := h
    exact (carries_renderBody hp hy).mono (List.suffix_append _ _).isInfix

theorem optionalValue_eq_ok {r : Except Gap Pieces} {o : Option Pieces} (hy : y ≠ .missing)
    (h : optionalValue y r = .ok o) : ∃ p, r = .ok p ∧ o = some p := by
  cases y with
  | missing => exact absurd rfl hy
  | _ =>
    obtain ⟨p, hp, rfl⟩ := map_eq_ok.mp h
    exact ⟨p, hp, rfl⟩

/-- The arguments of a format are its values, each where a slot asks for it. -/
theorem slotArguments_eq_ok_iff {values : List (Except Gap Pieces)} {slots : List Int}
    {args : List Pieces} : slotArguments values slots = .ok args ↔
      List.Forall₂ (fun k p => 1 ≤ k ∧ values[k.toNat - 1]? = some (.ok p)) slots args := by
  induction slots generalizing args with
  | nil => simp [slotArguments, eq_comm]
  | cons k rest ih =>
    rw [slotArguments_cons_ok_iff]
    cases args with
    | nil => simp
    | cons p args =>
      simp only [ih, List.forall₂_cons, List.cons.injEq]
      constructor
      · rintro ⟨hk, _, hp, _, hps, rfl, rfl⟩
        exact ⟨⟨hk, hp⟩, hps⟩
      · rintro ⟨⟨hk, hp⟩, hps⟩
        exact ⟨hk, p, hp, args, hps, rfl, rfl⟩

theorem formatPieces_eq_ok_iff {fragments : List Bytes} {slots : List Int}
    {values : List (Except Gap Pieces)} : formatPieces fragments slots values = .ok pieces ↔
      fragments.length = slots.length + 1 ∧ values.length ≤ slots.length ∧
      ∃ args, slotArguments values slots = .ok args ∧ member "string" "format" ++
        parenthesized (commaSeparated ([.literal (template fragments)] :: args)) = pieces := by
  rw [formatPieces]
  split
  next hf => simp [hf]
  next hf =>
    split
    next hv => simp [Nat.not_le.mpr hv]
    next hv =>
      simp only [bind_eq_ok, pure_eq_ok, not_not.mp hf, Nat.not_lt.mp hv, true_and]

theorem statementOnly_eq_ok {what : String} {render : Nat → Bool → Except Gap Pieces} :
    place.statementOnly what render = .ok pieces ↔
      ∃ depth last, place = .statement depth last ∧ render depth last = .ok pieces := by
  cases place with
  | value => simp [Place.statementOnly]
  | statement depth last =>
    refine ⟨fun h => ⟨depth, last, rfl, h⟩, ?_⟩
    rintro ⟨_, _, ⟨⟩, h⟩
    exact h

/-- Step: where a node gives pieces, they carry all that is rendered with it. -/
theorem carries_renderItem {seat : Seat} (h : renderItem s place x = .ok pieces)
    (hy : x.Shows seat y) : Carries s pieces (seat.use place.use.inLoop) y := by
  obtain ⟨hs, hp, hn⟩ := hy
  cases x with
  | missing | externs | breakLoop | continueLoop | ident | bool | integer | decimal | string =>
    cases hs
  | function name params body =>
    simp only [renderItem, statementOnly_eq_ok, bind_eq_ok, pure_eq_ok] at h
    obtain ⟨depth, last, rfl, b, hb, rfl⟩ := h
    obtain ⟨hm, i, rfl⟩ := Ir.mem_of_mem_bodySeats hs
    refine (carries_renderBody hb hm).mono ?_
    exact (infix_functionPieces params).trans (List.infix_append _ _ _)
  | varDecl name value =>
    simp only [renderItem, statementOnly_eq_ok, bind_eq_ok, pure_eq_ok] at h
    obtain ⟨depth, last, rfl, v, hv, rfl⟩ := h
    obtain ⟨⟨⟩⟩ | hs := List.mem_cons.mp hs
    · exact (carries_value hv).mono (infix_localPieces name)
    · cases hs
  | varSet name value =>
    simp only [renderItem, statementOnly_eq_ok, bind_eq_ok, pure_eq_ok] at h
    obtain ⟨depth, last, rfl, v, hv, rfl⟩ := h
    obtain ⟨⟨⟩⟩ | hs := List.mem_cons.mp hs
    · exact (carries_value hv).mono (List.infix_append _ _ _)
    · cases hs
  | mod name items =>
    simp only [renderItem, statementOnly_eq_ok, bind_eq_ok, pure_eq_ok] at h
    obtain ⟨depth, last, rfl, b, hb, rfl⟩ := h
    obtain ⟨hm, i, rfl⟩ := Ir.mem_of_mem_bodySeats hs
    exact (carries_renderBody hb hm).mono (List.suffix_append _ _).isInfix
  | returnValue value =>
    simp only [renderItem, statementOnly_eq_ok, bind_eq_ok, pure_eq_ok] at h
    obtain ⟨depth, last, rfl, o, ho, rfl⟩ := h
    obtain ⟨⟨⟩⟩ | hs := List.mem_cons.mp hs
    · obtain ⟨v, hv, rfl⟩ := optionalValue_eq_ok (hp _ rfl) ho
      exact (carries_value hv).mono (infix_returnPieces last)
    · cases hs
  | ifElif cond body elifs otherwise =>
    simp only [renderItem, statementOnly_eq_ok, bind_eq_ok, pure_eq_ok] at h
    obtain ⟨depth, last, rfl, c, hc, b, hb, e, he, o, ho, rfl⟩ := h
    simp only [Item.seats, List.mem_append, List.mem_cons, Ir.mem_elifSeats] at hs
    obtain ((⟨⟨⟩⟩ | hs) | ⟨j, branch, hj, hs⟩) | hs := hs
    · exact (carries_value hc).mono ((infix_branchPieces c b).1.trans (infix_ifPieces c b e o).1)
    · obtain ⟨hm, i, rfl⟩ := Ir.mem_of_mem_bodySeats hs
      exact (carries_renderBody hb hm).mono
        ((infix_branchPieces c b).2.trans (infix_ifPieces c b e o).1)
    · have hpart := (infix_ifPieces c b e o).2
      obtain ⟨hcond, hbody⟩ := carries_renderElifs he (List.mem_of_getElem? hj)
      obtain ⟨⟨⟩⟩ | hs := List.mem_cons.mp hs
      · exact hcond.mono hpart
      · obtain ⟨hm, i, rfl⟩ := Ir.mem_of_mem_bodySeats hs
        exact (hbody y hm).mono hpart
    · obtain ⟨hm, i, rfl⟩ := Ir.mem_of_mem_bodySeats hs
      exact (carries_renderElse ho hm).mono (List.infix_append _ _ _)
  | whileLoop cond body | forIn var cond body =>
    simp only [renderItem, statementOnly_eq_ok, bind_eq_ok, pure_eq_ok] at h
    obtain ⟨depth, last, rfl, c, hc, b, hb, rfl⟩ := h
    obtain ⟨⟨⟩⟩ | hs := List.mem_cons.mp hs
    · exact (carries_value hc).mono (List.infix_append _ _ _)
    · obtain ⟨hm, i, rfl⟩ := Ir.mem_of_mem_bodySeats hs
      exact (carries_renderBody hb hm).mono
        (infix_loopPieces.trans (List.suffix_append _ _).isInfix)
  | forRange var min max step body =>
    simp only [renderItem, statementOnly_eq_ok, bind_eq_ok, pure_eq_ok] at h
    obtain ⟨depth, last, rfl, lo, hlo, hi, hhi, o, ho, b, hb, rfl⟩ := h
    have hrange : ∀ p ∈ [lo, hi] ++ o.toList, p <:+:
        [.keyword .forKw, .blank, .name var, .blank, .mark .assign, .blank] ++
          commaSeparated ([lo, hi] ++ o.toList) ++ loopPieces s (depth + 1) b := by
      intro p hp
      exact (infix_commaSeparated hp).trans (List.infix_append _ _ _)
    simp only [Item.seats, List.mem_cons] at hs
    obtain ⟨⟨⟩⟩ | ⟨⟨⟩⟩ | ⟨⟨⟩⟩ | hs := hs
    · exact (carries_value hlo).mono (hrange lo (by simp))
    · exact (carries_value hhi).mono (hrange hi (by simp))
    · obtain ⟨v, hv, rfl⟩ := optionalValue_eq_ok (hp _ rfl) ho
      exact (carries_value hv).mono (hrange v (by simp))
    · obtain ⟨hm, i, rfl⟩ := Ir.mem_of_mem_bodySeats hs
      exact (carries_renderBody hb hm).mono
        (infix_loopPieces.trans (List.suffix_append _ _).isInfix)
  | call func args =>
    simp only [renderItem, bind_eq_ok, pure_eq_ok] at h
    obtain ⟨f, hf, list, hl, rfl⟩ := h
    obtain ⟨⟨⟩⟩ | hs := List.mem_cons.mp hs
    · refine (carries_value hf).mono (List.IsInfix.trans ?_ infix_finishCall)
      exact (infix_ite _ List.infix_rfl infix_parenthesized).trans (List.prefix_append _ _).isInfix
    · obtain ⟨hm, i, rfl⟩ := Ir.mem_of_mem_childSeats hs
      exact (carries_renderValues hl hm).mono ((infix_parenthesized.trans
        (List.suffix_append _ _).isInfix).trans infix_finishCall)
  | closure params body =>
    simp only [renderItem, bind_eq_ok, pure_eq_ok] at h
    obtain ⟨b, hb, rfl⟩ := h
    obtain ⟨hm, i, rfl⟩ := Ir.mem_of_mem_bodySeats hs
    exact (carries_renderBody hb hm).mono (((infix_functionPieces params).trans
      (List.suffix_append _ _).isInfix).trans infix_finishValue)
  | array elements =>
    simp only [renderItem, bind_eq_ok, pure_eq_ok] at h
    obtain ⟨list, hl, rfl⟩ := h
    obtain ⟨hm, i, rfl⟩ := Ir.mem_of_mem_childSeats hs
    exact (carries_renderValues hl hm).mono
      ((List.infix_append _ _ _).trans infix_finishValue)
  | binary op lhs rhs =>
    simp only [renderItem, bind_eq_ok, pure_eq_ok] at h
    obtain ⟨o, ho, l, hl, r, hr, rfl⟩ := h
    simp only [Item.seats, List.mem_cons] at hs
    obtain ⟨⟨⟩⟩ | ⟨⟨⟩⟩ | hs := hs
    · refine (carries_value hl).mono (List.IsInfix.trans ?_ infix_finishValue)
      rw [List.append_assoc]
      exact (infix_ite _ infix_parenthesized List.infix_rfl).trans (List.prefix_append _ _).isInfix
    · refine (carries_value hr).mono (List.IsInfix.trans ?_ infix_finishValue)
      exact (infix_ite _ infix_parenthesized List.infix_rfl).trans (List.suffix_append _ _).isInfix
    · cases hs
  | format fragments slots values =>
    simp only [renderItem, bind_eq_ok, pure_eq_ok, formatPieces_eq_ok_iff] at h
    obtain ⟨_, ⟨_, _, args, hargs, rfl⟩, rfl⟩ := h
    obtain ⟨i, hi, rfl⟩ := Ir.mem_childSeats.mp hs
    obtain ⟨_, v, hv, hr⟩ := exists_slotArgument hargs (hn _ _ _ i rfl rfl)
    rw [Int.toNat_natCast_add_one, Nat.add_sub_cancel, getElem?_renderEach, hi, Option.map_some,
      Option.some.injEq] at hr
    refine (carries_value hr).mono (List.IsInfix.trans ?_ infix_finishValue)
    exact ((infix_commaSeparated (List.mem_cons_of_mem _ hv)).trans infix_parenthesized).trans
      (List.suffix_append _ _).isInfix

/-- Run: so do they carry all that is rendered below it, at every depth. -/
theorem Gives.carries {v : Use} (h : Gives s u x (.ok pieces)) (hr : Ir.Reaches u x v y) :
    Carries s pieces v y := by
  induction hr generalizing pieces with
  | self => exact ⟨pieces, h, List.infix_rfl⟩
  | down hy _ ih =>
    obtain ⟨place, rfl, hx⟩ := h
    obtain ⟨p, hp, hi⟩ := carries_renderItem hx hy
    exact (ih hp).mono hi

theorem carries_renderProgram {program : Program} (h : renderProgram s program = .ok pieces)
    (hx : program.Shows u x) : Carries s pieces u x := by
  obtain ⟨i, hi, hr⟩ := hx
  obtain ⟨p, hp, hin⟩ := carries_renderBody h hi
  exact (hp.carries hr).mono hin

end
end RustLua.Lua
