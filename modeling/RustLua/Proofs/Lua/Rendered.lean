import RustLua.Proofs.Lua.Slots

/-! # What rendering gives

One relation for each kind of place, with one rule for each node: the pieces that a
node renders to, made of the pieces of its children. Rendering only ever gives what
these rules allow, and whatever holds of all rendered pieces is shown by induction on
the rules. -/
namespace RustLua.Lua

open Ir (Item Branch)

mutual

/-- The pieces of a node that is used as a value. -/
inductive ValuePieces (s : Settings) : Item → Pieces → Prop
  | ident {name : Bytes} : ValuePieces s (.ident name) [.name name]
  | bool {value : Bool} :
      ValuePieces s (.bool value) [.keyword (if value then .trueKw else .falseKw)]
  | integer {n : Int64} : ValuePieces s (.integer n) (integerPieces n)
  | decimal {d : Double} : ValuePieces s (.decimal d) (decimalPieces d)
  | string {text : Bytes} : ValuePieces s (.string text) [.literal (quote text)]
  | call {func : Item} {args : List Item} {callee : Pieces} {list : List Pieces}
      (hf : ValuePieces s func callee) (ha : ListPieces s args list) :
      ValuePieces s (.call func args)
        ((if isCallable func then callee else parenthesized callee) ++
          parenthesized (commaSeparated list))
  | closure {params : List Bytes} {body : List Item} {pieces : Pieces}
      (hb : BodyPieces s 0 true body pieces) :
      ValuePieces s (.closure params body)
        ([Piece.keyword .functionKw] ++ functionPieces params pieces)
  | array {elements : List Item} {list : List Pieces} (he : ListPieces s elements list) :
      ValuePieces s (.array elements)
        ([Piece.mark .braceOpen] ++ commaSeparated list ++ [Piece.mark .braceClose])
  | binary {op : Ir.BinaryOp} {o : Operator} {lhs rhs : Item} {left right : Pieces}
      (ho : Operator.ofIr? op = some o) (hl : ValuePieces s lhs left)
      (hr : ValuePieces s rhs right) :
      ValuePieces s (.binary op lhs rhs)
        ((if needsParens o.level false lhs then parenthesized left else left) ++ [Piece.operator o] ++
          (if needsParens o.level true rhs then parenthesized right else right))
  | format {fragments : List Bytes} {slots : List Int} {values : List Item}
      {args : List Pieces} (ha : SlotPieces s values slots args) :
      ValuePieces s (.format fragments slots values)
        (member "string" "format" ++
          parenthesized (commaSeparated ([.literal (template fragments)] :: args)))

/-- The pieces of values that stand next to each other. -/
inductive ListPieces (s : Settings) : List Item → List Pieces → Prop
  | nil : ListPieces s [] []
  | cons {i : Item} {items : List Item} {first : Pieces} {rest : List Pieces}
      (hf : ValuePieces s i first) (hr : ListPieces s items rest) :
      ListPieces s (i :: items) (first :: rest)

/-- The pieces of the values that slots name, in the order of the slots. -/
inductive SlotPieces (s : Settings) : List Item → List Int → List Pieces → Prop
  | nil {values : List Item} : SlotPieces s values [] []
  | cons {values : List Item} {slot : Int} {slots : List Int} {value : Item} {first : Pieces}
      {rest : List Pieces} (hs : values[slot.toNat - 1]? = some value)
      (hf : ValuePieces s value first) (hr : SlotPieces s values slots rest) :
      SlotPieces s values (slot :: slots) (first :: rest)

/-- The pieces of a value that may be left out. -/
inductive OptionPieces (s : Settings) : Item → Option Pieces → Prop
  | none : OptionPieces s .missing none
  | some {i : Item} {pieces : Pieces} (hi : ValuePieces s i pieces) :
      OptionPieces s i (some pieces)

/-- The pieces of a statement inside `depth` loops, at the end of its block or not. -/
inductive StatementPieces (s : Settings) : Nat → Bool → Item → Pieces → Prop
  | ofValue {depth : Nat} {isLast : Bool} {i : Item} {pieces : Pieces}
      (hi : ValuePieces s i pieces) : StatementPieces s depth isLast i (localPieces "_" pieces)
  | ofCall {depth : Nat} {isLast : Bool} {func : Item} {args : List Item} {pieces : Pieces}
      (hc : ValuePieces s (.call func args) pieces) :
      StatementPieces s depth isLast (.call func args) (pieces ++ [Piece.mark .semicolon])
  | function {depth : Nat} {isLast : Bool} {name : Bytes} {params : List Bytes}
      {body : List Item} {pieces : Pieces} (hb : BodyPieces s 0 true body pieces) :
      StatementPieces s depth isLast (.function name params body)
        ([Piece.keyword .functionKw, .blank, .name name] ++ functionPieces params pieces ++
          [Piece.mark .semicolon])
  | varDecl {depth : Nat} {isLast : Bool} {name : Bytes} {value : Item} {pieces : Pieces}
      (hv : ValuePieces s value pieces) :
      StatementPieces s depth isLast (.varDecl name value) (localPieces name pieces)
  | varSet {depth : Nat} {isLast : Bool} {name : Bytes} {value : Item} {pieces : Pieces}
      (hv : ValuePieces s value pieces) :
      StatementPieces s depth isLast (.varSet name value)
        ([Piece.name name, .blank, .mark .assign, .blank] ++ pieces ++ [Piece.mark .semicolon])
  | externs {depth : Nat} {isLast : Bool} {names : List Bytes} :
      StatementPieces s depth isLast (.externs names) (names.flatMap (externPieces s))
  | mod {depth : Nat} {isLast : Bool} {name : Bytes} {items : List Item} {pieces : Pieces}
      (hi : BodyPieces s depth false items pieces) :
      StatementPieces s depth isLast (.mod name items)
        (localPieces name [Piece.mark .braceOpen, .mark .braceClose] ++ pieces)
  | breakLoop {depth : Nat} {isLast : Bool} (hd : depth ≠ 0) :
      StatementPieces s depth isLast .breakLoop [.keyword .breakKw, .mark .semicolon]
  | continueLoop {depth : Nat} {isLast : Bool} (hd : depth ≠ 0) :
      StatementPieces s depth isLast .continueLoop
        [.keyword .gotoKw, .blank, .name (s.label depth), .mark .semicolon]
  | returnValue {depth : Nat} {isLast : Bool} {value : Item} {pieces : Option Pieces}
      (hv : OptionPieces s value pieces) :
      StatementPieces s depth isLast (.returnValue value) (returnPieces isLast pieces)
  | ifElif {depth : Nat} {isLast : Bool} {cond : Item} {body : List Item}
      {elifs : List Branch} {otherwise : Option (List Item)} {c b e l : Pieces}
      (hc : ValuePieces s cond c) (hb : BodyPieces s depth true body b)
      (he : ElifPieces s depth elifs e) (hl : ElsePieces s depth otherwise l) :
      StatementPieces s depth isLast (.ifElif cond body elifs otherwise)
        ([Piece.keyword .ifKw] ++ branchPieces c b ++ e ++ l ++
          [Piece.blank, .keyword .endKw, .mark .semicolon])
  | whileLoop {depth : Nat} {isLast : Bool} {cond : Item} {body : List Item} {c b : Pieces}
      (hc : ValuePieces s cond c) (hb : BodyPieces s (depth + 1) false body b) :
      StatementPieces s depth isLast (.whileLoop cond body)
        ([Piece.keyword .whileKw, .blank] ++ c ++ loopPieces s (depth + 1) b)
  | forRange {depth : Nat} {isLast : Bool} {var : Bytes} {min max step : Item}
      {body : List Item} {first last b : Pieces} {stride : Option Pieces}
      (hmin : ValuePieces s min first) (hmax : ValuePieces s max last)
      (hs : OptionPieces s step stride) (hb : BodyPieces s (depth + 1) false body b) :
      StatementPieces s depth isLast (.forRange var min max step body)
        ([Piece.keyword .forKw, .blank, .name var, .blank, .mark .assign, .blank] ++
          commaSeparated ([first, last] ++ stride.toList) ++ loopPieces s (depth + 1) b)
  | forIn {depth : Nat} {isLast : Bool} {var : Bytes} {iterated : Item} {body : List Item}
      {i b : Pieces} (hi : ValuePieces s iterated i)
      (hb : BodyPieces s (depth + 1) false body b) :
      StatementPieces s depth isLast (.forIn var iterated body)
        ([Piece.keyword .forKw, .blank, .name var, .blank, .keyword .inKw, .blank] ++ i ++
          loopPieces s (depth + 1) b)

/-- The pieces of statements; `endsBlock` says whether the block ends behind them. -/
inductive BodyPieces (s : Settings) : Nat → Bool → List Item → Pieces → Prop
  | nil {depth : Nat} {endsBlock : Bool} : BodyPieces s depth endsBlock [] []
  | cons {depth : Nat} {endsBlock : Bool} {i : Item} {items : List Item} {first rest : Pieces}
      (hf : StatementPieces s depth (endsBlock && items.isEmpty) i first)
      (hr : BodyPieces s depth endsBlock items rest) :
      BodyPieces s depth endsBlock (i :: items) (first ++ rest)

inductive ElifPieces (s : Settings) : Nat → List Branch → Pieces → Prop
  | nil {depth : Nat} : ElifPieces s depth [] []
  | cons {depth : Nat} {cond : Item} {body : List Item} {elifs : List Branch}
      {c b rest : Pieces} (hc : ValuePieces s cond c) (hb : BodyPieces s depth true body b)
      (hr : ElifPieces s depth elifs rest) :
      ElifPieces s depth (.mk cond body :: elifs)
        ([Piece.blank, .keyword .elseifKw] ++ branchPieces c b ++ rest)

inductive ElsePieces (s : Settings) : Nat → Option (List Item) → Pieces → Prop
  | none {depth : Nat} : ElsePieces s depth none []
  | some {depth : Nat} {body : List Item} {b : Pieces} (hb : BodyPieces s depth true body b) :
      ElsePieces s depth (some body) ([Piece.blank, .keyword .elseKw, .blank] ++ b)

end

/-! ## Rendering follows the rules -/

/-- The pieces of a node at a place. -/
def Place.Gives (s : Settings) (i : Item) (pieces : Pieces) : Place → Prop
  | .value => ValuePieces s i pieces
  | .statement depth isLast => StatementPieces s depth isLast i pieces

section
variable {s : Settings} {place : Place} {i : Item} {pieces : Pieces}

theorem Place.gives_finishValue (h : ValuePieces s i pieces) :
    place.Gives s i (place.finishValue pieces) := by
  cases place with
  | value => exact h
  | statement depth isLast => exact .ofValue h

theorem Place.gives_finishCall {func : Item} {args : List Item}
    (h : ValuePieces s (.call func args) pieces) :
    place.Gives s (.call func args) (place.finishCall pieces) := by
  cases place with
  | value => exact h
  | statement depth isLast => exact .ofCall h

theorem Place.gives_statementOnly {what : String} {render : Nat → Bool → Except Gap Pieces}
    (h : ∀ depth isLast, Ensures (render depth isLast) (StatementPieces s depth isLast i)) :
    Ensures (place.statementOnly what render) fun p => place.Gives s i p := by
  cases place with
  | value => exact .error
  | statement depth isLast => exact h depth isLast

theorem ensures_operatorOf (op : Ir.BinaryOp) :
    Ensures (operatorOf op) fun o => Operator.ofIr? op = some o := by
  intro o h
  unfold operatorOf at h
  split at h
  · cases h; assumption
  · cases h

theorem ensures_slotArguments {values : List Item} (slots : List Int)
    (hv : ∀ v ∈ values, Ensures (renderItem s .value v) (ValuePieces s v)) :
    Ensures (slotArguments (renderEach s values) slots) (SlotPieces s values slots) := by
  intro args h
  induction slots generalizing args with
  | nil => cases h; exact .nil
  | cons slot slots ih =>
    obtain ⟨_, p, hp, ps, hps, rfl⟩ := slotArguments_cons_ok_iff.mp h
    rw [getElem?_renderEach] at hp
    obtain ⟨v, hs, hr⟩ := Option.map_eq_some_iff.mp hp
    exact .cons hs (hv v (List.mem_of_getElem? hs) p hr) (ih ps hps)

theorem ensures_formatPieces {fragments : List Bytes} {slots : List Int} {values : List Item}
    (hv : ∀ v ∈ values, Ensures (renderItem s .value v) (ValuePieces s v)) :
    Ensures (formatPieces fragments slots (renderEach s values))
      (ValuePieces s (.format fragments slots values)) :=
  .ite (fun _ => .error) fun _ => .ite (fun _ => .error) fun _ =>
    (ensures_slotArguments slots hv).bind fun _ _ ha => .pure (.format ha)

theorem ensures_optionalValue (hv : Ensures (renderItem s .value i) (ValuePieces s i)) :
    Ensures (optionalValue i (renderItem s .value i)) (OptionPieces s i) := by
  unfold optionalValue
  split
  · exact .pure .none
  · exact hv.map fun _ h => .some h

end

mutual

theorem gives_renderItem (s : Settings) (place : Place) :
    (i : Item) → Ensures (renderItem s place i) fun p => place.Gives s i p
  | .missing => by
    cases place <;> exact .error
  | .function _ _ body => Place.gives_statementOnly fun _ _ =>
    (body_renderBody s body).bind fun _ _ hb => .pure (.function hb)
  | .varDecl _ value => Place.gives_statementOnly fun _ _ =>
    (gives_renderItem s .value value).bind fun _ _ hv => .pure (.varDecl hv)
  | .varSet _ value => Place.gives_statementOnly fun _ _ =>
    (gives_renderItem s .value value).bind fun _ _ hv => .pure (.varSet hv)
  | .externs _ => Place.gives_statementOnly fun _ _ => .pure .externs
  | .mod _ items => Place.gives_statementOnly fun _ _ =>
    (body_renderBody s items).bind fun _ _ hb => .pure (.mod hb)
  | .breakLoop => Place.gives_statementOnly fun _ _ =>
    .ite (fun _ => .error) fun hd => .pure (.breakLoop hd)
  | .continueLoop => Place.gives_statementOnly fun _ _ =>
    .ite (fun _ => .error) fun hd => .pure (.continueLoop hd)
  | .returnValue value => Place.gives_statementOnly fun _ _ =>
    (ensures_optionalValue (gives_renderItem s .value value)).bind fun _ _ hv =>
      .pure (.returnValue hv)
  | .ifElif cond body elifs otherwise => Place.gives_statementOnly fun _ _ =>
    (gives_renderItem s .value cond).bind fun _ _ hc => (body_renderBody s body).bind fun _ _ hb =>
      (elif_renderElifs s elifs).bind fun _ _ he => (else_renderElse s otherwise).bind fun _ _ hl =>
        .pure (.ifElif hc hb he hl)
  | .whileLoop cond body => Place.gives_statementOnly fun _ _ =>
    (gives_renderItem s .value cond).bind fun _ _ hc => (body_renderBody s body).bind fun _ _ hb =>
      .pure (.whileLoop hc hb)
  | .forRange _ min max step body => Place.gives_statementOnly fun _ _ =>
    (gives_renderItem s .value min).bind fun _ _ hmin =>
      (gives_renderItem s .value max).bind fun _ _ hmax =>
      (ensures_optionalValue (gives_renderItem s .value step)).bind fun _ _ hs =>
        (body_renderBody s body).bind fun _ _ hb => .pure (.forRange hmin hmax hs hb)
  | .forIn _ iterated body => Place.gives_statementOnly fun _ _ =>
    (gives_renderItem s .value iterated).bind fun _ _ hi =>
      (body_renderBody s body).bind fun _ _ hb =>
      .pure (.forIn hi hb)
  | .call func args => (gives_renderItem s .value func).bind fun _ _ hf =>
    (list_renderValues s args).bind fun _ _ ha => .pure (Place.gives_finishCall (.call hf ha))
  | .ident _ => .ite (fun _ => .error) fun _ => .pure (Place.gives_finishValue .ident)
  | .bool _ => .pure (Place.gives_finishValue .bool)
  | .integer _ => .pure (Place.gives_finishValue .integer)
  | .decimal _ => .pure (Place.gives_finishValue .decimal)
  | .string _ => .pure (Place.gives_finishValue .string)
  | .closure _ body => (body_renderBody s body).bind fun _ _ hb =>
    .pure (Place.gives_finishValue (.closure hb))
  | .array elements => (list_renderValues s elements).bind fun _ _ he =>
    .pure (Place.gives_finishValue (.array he))
  | .binary op lhs rhs => (ensures_operatorOf op).bind fun _ _ ho =>
    (gives_renderItem s .value lhs).bind fun _ _ hl =>
      (gives_renderItem s .value rhs).bind fun _ _ hr =>
      .pure (Place.gives_finishValue (.binary ho hl hr))
  | .format _ _ values => (ensures_formatPieces (value_renderEach s values)).bind fun _ _ h =>
    .pure (Place.gives_finishValue h)

theorem list_renderValues (s : Settings) :
    (items : List Item) → Ensures (renderValues s items) (ListPieces s items)
  | [] => .pure .nil
  | i :: items => (gives_renderItem s .value i).bind fun _ _ hf =>
    (list_renderValues s items).bind fun _ _ hr => .pure (.cons hf hr)

theorem value_renderEach (s : Settings) :
    (items : List Item) → ∀ v ∈ items, Ensures (renderItem s .value v) (ValuePieces s v)
  | [] => by simp
  | i :: items => List.forall_mem_cons.mpr ⟨gives_renderItem s .value i, value_renderEach s items⟩

theorem body_renderBody (s : Settings) {depth : Nat} {endsBlock : Bool} :
    (items : List Item) →
      Ensures (renderBody s depth endsBlock items) (BodyPieces s depth endsBlock items)
  | [] => .pure .nil
  | i :: items => (gives_renderItem s _ i).bind fun _ _ hf =>
    (body_renderBody s items).bind fun _ _ hr => .pure (.cons hf hr)

theorem elif_renderElifs (s : Settings) {depth : Nat} :
    (elifs : List Branch) → Ensures (renderElifs s depth elifs) (ElifPieces s depth elifs)
  | [] => .pure .nil
  | .mk cond body :: elifs => (gives_renderItem s .value cond).bind fun _ _ hc =>
    (body_renderBody s body).bind fun _ _ hb => (elif_renderElifs s elifs).bind fun _ _ hr =>
      .pure (.cons hc hb hr)

theorem else_renderElse (s : Settings) {depth : Nat} :
    (otherwise : Option (List Item)) →
      Ensures (renderElse s depth otherwise) (ElsePieces s depth otherwise)
  | none => .pure .none
  | some body => (body_renderBody s body).bind fun _ _ hb => .pure (.some hb)

end

end RustLua.Lua
