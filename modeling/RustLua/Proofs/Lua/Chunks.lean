import RustLua.Proofs.Lua.Grammar
import RustLua.Proofs.Lua.Rendered
import RustLua.Proofs.Lua.Tokens

/-! # Generated programs are chunks

What rendering gives is derived from the grammar: values from expressions, and from
prefix expressions where they are called; statements from blocks that more statements
may follow, unless they end in a bare return. -/
namespace RustLua.Lua

open Ir (Item Branch)

variable {s : Settings} {p q e b : Pieces}

/-! ## Lists -/

theorem derives_explist {first : Pieces} {rest : List Pieces}
    (h : ∀ e ∈ first :: rest, Derives .exp e) :
    Derives .explist (commaSeparated (first :: rest)) := by
  induction rest generalizing first with
  | nil =>
    rw [commaSeparated, List.intercalate_singleton]
    exact .exp (h first (by simp))
  | cons second rest ih =>
    obtain ⟨hf, hr⟩ := List.forall_mem_cons.mp h
    rw [commaSeparated, List.intercalate_cons_cons]
    exact .expComma hf (ih hr)

theorem derives_fieldlist {first : Pieces} {rest : List Pieces}
    (h : ∀ e ∈ first :: rest, Derives .exp e) :
    Derives .fieldlist (commaSeparated (first :: rest)) := by
  induction rest generalizing first with
  | nil =>
    rw [commaSeparated, List.intercalate_singleton]
    exact .oneField (.expField (h first (by simp)))
  | cons second rest ih =>
    obtain ⟨hf, hr⟩ := List.forall_mem_cons.mp h
    rw [commaSeparated, List.intercalate_cons_cons]
    exact .fields (.expField hf) .commaSep (ih hr)

theorem derives_namelist (first : Bytes) (rest : List Bytes) :
    Derives .namelist (commaSeparated ((first :: rest).map fun n => [.name n])) := by
  induction rest generalizing first with
  | nil =>
    rw [commaSeparated, List.map_singleton, List.intercalate_singleton]
    exact .oneName
  | cons second rest ih =>
    rw [commaSeparated, List.map_cons, List.map_cons, List.intercalate_cons_cons]
    exact .nameComma (ih second)

/-! ## Values -/

theorem derives_args {list : List Pieces} (h : ∀ e ∈ list, Derives .exp e) :
    Derives .args (parenthesized (commaSeparated list)) := by
  cases list with
  | nil => exact .noArgs
  | cons first rest => exact .args (derives_explist h)

theorem derives_table {list : List Pieces} (h : ∀ e ∈ list, Derives .exp e) :
    Derives .tableconstructor
      ([Piece.mark .braceOpen] ++ commaSeparated list ++ [Piece.mark .braceClose]) := by
  cases list with
  | nil => exact .emptyTable
  | cons first rest => exact .table (derives_fieldlist h)

theorem derives_funcbody (params : List Bytes) (hb : Derives .block b) :
    Derives .funcbody (functionPieces params b) := by
  cases params with
  | nil => exact .bodyNoParams hb
  | cons first rest => exact .body (derives_namelist first rest) hb

theorem derives_member (table field : String) : Derives .prefixexp (member table field) :=
  .varPrefix (.dot (.varPrefix .name))

theorem derives_signed (negative : Bool) (h : Derives .exp e) :
    Derives .exp ((if negative then [.mark .minus] else []) ++ e) := by
  cases negative with
  | true => exact .minus h
  | false => exact h

theorem derives_integer (n : Int64) : Derives .exp (integerPieces n) := by
  unfold integerPieces
  split
  · exact .prefixExp (derives_member _ _)
  · split
    · exact .minus .numeral
    · exact .numeral

theorem derives_decimal (d : Double) : Derives .exp (decimalPieces d) := by
  unfold decimalPieces
  split
  · exact .prefixExp (.paren (.binop .numeral .numeral))
  · extract_lets sign size
    split
    · exact derives_signed _ (.prefixExp (derives_member _ _))
    · exact derives_signed _ .numeral

theorem derives_operand (parens : Bool) (h : Derives .exp e.tokens) :
    Derives .exp (Pieces.tokens (if parens then parenthesized e else e)) := by
  cases parens with
  | true =>
    rw [if_pos rfl, tokens_parenthesized]
    exact .prefixExp (.paren h)
  | false => exact h

/-- The nonterminal that a value comes from. -/
def categoryOf : Item → Category
  | .ident _ => .var
  | .call _ _ => .functioncall
  | _ => .exp

theorem derives_exp {i : Item} (h : Derives (categoryOf i) e) : Derives .exp e := by
  unfold categoryOf at h
  split at h
  · exact .prefixExp (.varPrefix h)
  · exact .prefixExp (.callPrefix h)
  · exact h

theorem derives_callee {func : Item} (h : Derives (categoryOf func) e.tokens) :
    Derives .prefixexp (Pieces.tokens (if isCallable func then e else parenthesized e)) := by
  cases hc : isCallable func with
  | false =>
    rw [if_neg (by simp), tokens_parenthesized]
    exact .paren (derives_exp h)
  | true =>
    rw [if_pos rfl]
    unfold isCallable at hc
    split at hc
    · exact .varPrefix h
    · exact .callPrefix h
    · cases hc

/-! ## Statements -/

/-- Pieces that a block may start with, whatever its rest. -/
def Continues (p : Pieces) : Prop := ∀ b, Derives .block b → Derives .block (p ++ b)

theorem continues_nil : Continues [] := fun _ hb => hb

theorem Continues.append (hp : Continues p) (hq : Continues q) : Continues (p ++ q) := by
  intro b hb
  rw [List.append_assoc]
  exact hp _ (hq b hb)

/-- The semicolon behind a statement is an empty statement. -/
theorem continues_stat (h : Derives .stat p) : Continues (p ++ [Piece.mark .semicolon]) := by
  intro b hb
  rw [List.append_assoc]
  exact .stat h (.stat .semicolon hb)

theorem continues_local (name : Bytes) (h : Derives .exp p.tokens) :
    Continues (localPieces name p).tokens := by
  have hstat := continues_stat (.localAssign (.oneName (n := name)) (.exp h))
  simpa [localPieces] using hstat

theorem continues_externs (names : List Bytes) :
    Continues (Pieces.tokens (names.flatMap (externPieces s))) := by
  induction names with
  | nil => exact continues_nil
  | cons name names ih =>
    have hlookup : Derives .exp
        (Pieces.tokens [.name s.globalTable, .mark .dot, .name name]) :=
      .prefixExp (.varPrefix (.dot (.varPrefix .name)))
    rw [List.flatMap_cons, tokens_append]
    exact (continues_local name hlookup).append ih

theorem continues_function (name : Bytes) (params : List Bytes) (hb : Derives .block b.tokens) :
    Continues (Pieces.tokens ([Piece.keyword .functionKw, .blank, .name name] ++
      functionPieces params b ++ [Piece.mark .semicolon])) := by
  have hstat := continues_stat (.function (.funcname (n := name)) (derives_funcbody params hb))
  simpa using hstat

theorem continues_assign (name : Bytes) (h : Derives .exp e.tokens) :
    Continues (Pieces.tokens
      ([Piece.name name, .blank, .mark .assign, .blank] ++ e ++ [Piece.mark .semicolon])) := by
  have hstat := continues_stat (.assign (.var (.name (n := name))) (.exp h))
  simpa using hstat

theorem continues_mod (name : Bytes) (h : Continues p.tokens) :
    Continues (Pieces.tokens
      (localPieces name [Piece.mark .braceOpen, .mark .braceClose] ++ p)) := by
  have htable : Derives .exp (Pieces.tokens [.mark .braceOpen, .mark .braceClose]) :=
    .tableExp .emptyTable
  rw [tokens_append]
  exact (continues_local name htable).append h

theorem derives_retstat {value : Option Pieces} (h : ∀ v ∈ value, Derives .exp v.tokens) :
    Derives .retstat (returnPieces true value).tokens := by
  cases value with
  | none => exact .bareReturnSemicolon
  | some v =>
    have hret := Derives.returnExpsSemicolon (.exp (h v rfl))
    simpa [returnPieces] using hret

theorem continues_return {value : Option Pieces} (h : ∀ v ∈ value, Derives .exp v.tokens) :
    Continues (returnPieces false value).tokens := by
  cases value with
  | none => exact continues_stat (.doBlock (.retstat .bareReturn))
  | some v =>
    have hret := continues_stat (.doBlock (.retstat (.returnExps (.exp (h v rfl)))))
    simpa [returnPieces] using hret

theorem continues_if {m l : Pieces} (he : Derives .exp e.tokens) (hb : Derives .block b.tokens)
    (hm : Derives .elseifs m.tokens) (hl : Derives .elsePart l.tokens) :
    Continues (Pieces.tokens ([Piece.keyword .ifKw] ++ branchPieces e b ++ m ++ l ++
      [Piece.blank, .keyword .endKw, .mark .semicolon])) := by
  have hstat := continues_stat (.ifThen he hb hm hl)
  simpa [branchPieces] using hstat

theorem derives_elseif {m : Pieces} (he : Derives .exp e.tokens) (hb : Derives .block b.tokens)
    (hm : Derives .elseifs m.tokens) :
    Derives .elseifs
      (Pieces.tokens ([Piece.blank, .keyword .elseifKw] ++ branchPieces e b ++ m)) := by
  have hbranch := Derives.elseif he hb hm
  simpa [branchPieces] using hbranch

/-! The body of a loop is a block with its label at the end, so nothing in it may be a
bare return. -/

theorem derives_loopBody (depth : Nat) (h : Continues b.tokens) :
    Derives .block (b.tokens ++ [Piece.mark .colons, .name (s.label depth), .mark .colons]) :=
  h _ (.stat .label .emptyBlock)

theorem continues_while {depth : Nat} (he : Derives .exp e.tokens) (hb : Continues b.tokens) :
    Continues (Pieces.tokens ([Piece.keyword .whileKw, .blank] ++ e ++ loopPieces s depth b)) := by
  have hstat := continues_stat (.whileLoop he (derives_loopBody (s := s) depth hb))
  simpa [loopPieces] using hstat

theorem continues_forRange {depth : Nat} (name : Bytes) {first last : Pieces}
    {step : Option Pieces} (hf : Derives .exp first.tokens) (hl : Derives .exp last.tokens)
    (hs : ∀ v ∈ step, Derives .exp v.tokens) (hb : Continues b.tokens) :
    Continues (Pieces.tokens
      ([Piece.keyword .forKw, .blank, .name name, .blank, .mark .assign, .blank] ++
        commaSeparated ([first, last] ++ step.toList) ++ loopPieces s depth b)) := by
  have hbody := derives_loopBody (s := s) depth hb
  cases step with
  | none =>
    have hstat := continues_stat (.numericFor (n := name) hf hl hbody)
    simpa [loopPieces, commaSeparated] using hstat
  | some v =>
    have hstat := continues_stat (.numericForStep (n := name) hf hl (hs v rfl) hbody)
    simpa [loopPieces, commaSeparated] using hstat

theorem continues_forIn {depth : Nat} (name : Bytes) (he : Derives .exp e.tokens)
    (hb : Continues b.tokens) :
    Continues (Pieces.tokens
      ([Piece.keyword .forKw, .blank, .name name, .blank, .keyword .inKw, .blank] ++ e ++
        loopPieces s depth b)) := by
  have hstat := continues_stat (.genericFor (.oneName (n := name)) (.exp he)
    (derives_loopBody (s := s) depth hb))
  simpa [loopPieces] using hstat

/-! ## Whole programs -/

mutual

theorem value_derives : ∀ {i : Item} {p : Pieces}, ValuePieces s i p →
    Derives (categoryOf i) p.tokens
  | _, _, .ident => .name
  | .bool true, _, .bool => .trueExp
  | .bool false, _, .bool => .falseExp
  | _, _, .integer => by
    rw [tokens_integerPieces]
    exact derives_integer _
  | _, _, .decimal => by
    rw [tokens_decimalPieces]
    exact derives_decimal _
  | _, _, .string => .literal
  | _, _, .call hf ha => by
    rw [tokens_append, tokens_parenthesized, tokens_commaSeparated]
    exact .call (derives_callee (value_derives hf)) (derives_args (list_derives ha))
  | _, _, .closure hb => by
    rw [tokens_append, tokens_functionPieces]
    exact .functiondefExp (.functiondef (derives_funcbody _ (body_derives hb).1))
  | _, _, .array he => by
    rw [tokens_append, tokens_append, tokens_commaSeparated]
    exact .tableExp (derives_table (list_derives he))
  | _, _, .binary _ hl hr => by
    rw [tokens_append, tokens_append]
    exact .binop (derives_operand _ (derives_exp (value_derives hl)))
      (derives_operand _ (derives_exp (value_derives hr)))
  | _, _, .format ha => by
    rw [tokens_append, tokens_parenthesized, tokens_commaSeparated]
    exact .prefixExp (.callPrefix (.call (derives_member _ _)
      (derives_args (List.forall_mem_cons.mpr ⟨.literal, slot_derives ha⟩))))

theorem list_derives : ∀ {items : List Item} {list : List Pieces}, ListPieces s items list →
    ∀ e ∈ list.map Pieces.tokens, Derives .exp e
  | _, _, .nil => by simp
  | _, _, .cons hf hr => List.forall_mem_cons.mpr ⟨derives_exp (value_derives hf), list_derives hr⟩

theorem slot_derives : ∀ {values : List Item} {slots : List Int} {args : List Pieces},
    SlotPieces s values slots args → ∀ e ∈ args.map Pieces.tokens, Derives .exp e
  | _, _, _, .nil => by simp
  | _, _, _, .cons _ hf hr =>
    List.forall_mem_cons.mpr ⟨derives_exp (value_derives hf), slot_derives hr⟩

theorem option_derives : ∀ {i : Item} {o : Option Pieces}, OptionPieces s i o →
    ∀ v ∈ o, Derives .exp v.tokens
  | _, _, .none => by simp
  | _, _, .some hi => by
    intro v hv
    cases hv
    exact derives_exp (value_derives hi)

/-- Only a return at the end of its block keeps others from following. -/
theorem statement_derives : ∀ {depth : Nat} {isLast : Bool} {i : Item} {p : Pieces},
    StatementPieces s depth isLast i p →
      Continues p.tokens ∨ (isLast = true ∧ Derives .retstat p.tokens)
  | _, _, _, _, .ofValue hi => .inl (continues_local _ (derives_exp (value_derives hi)))
  | _, _, _, _, .ofCall hc => by
    rw [tokens_append]
    exact .inl (continues_stat (.callStat (value_derives hc)))
  | _, _, _, _, .function hb => .inl (continues_function _ _ (body_derives hb).1)
  | _, _, _, _, .varDecl hv => .inl (continues_local _ (derives_exp (value_derives hv)))
  | _, _, _, _, .varSet hv => .inl (continues_assign _ (derives_exp (value_derives hv)))
  | _, _, _, _, .externs => .inl (continues_externs _)
  | _, _, _, _, .mod hi => .inl (continues_mod _ ((body_derives hi).2 rfl))
  | _, _, _, _, .breakLoop _ => .inl (continues_stat .breakStat)
  | _, _, _, _, .continueLoop _ => .inl (continues_stat .gotoStat)
  | _, isLast, _, _, .returnValue hv => by
    cases isLast with
    | false => exact .inl (continues_return (option_derives hv))
    | true => exact .inr ⟨rfl, derives_retstat (option_derives hv)⟩
  | _, _, _, _, .ifElif hc hb he hl =>
    .inl (continues_if (derives_exp (value_derives hc)) (body_derives hb).1 (elif_derives he)
      (else_derives hl))
  | _, _, _, _, .whileLoop hc hb =>
    .inl (continues_while (derives_exp (value_derives hc)) ((body_derives hb).2 rfl))
  | _, _, _, _, .forRange hmin hmax hs hb =>
    .inl (continues_forRange _ (derives_exp (value_derives hmin))
      (derives_exp (value_derives hmax)) (option_derives hs) ((body_derives hb).2 rfl))
  | _, _, _, _, .forIn hi hb =>
    .inl (continues_forIn _ (derives_exp (value_derives hi)) ((body_derives hb).2 rfl))

theorem body_derives : ∀ {depth : Nat} {endsBlock : Bool} {items : List Item} {p : Pieces},
    BodyPieces s depth endsBlock items p →
      Derives .block p.tokens ∧ (endsBlock = false → Continues p.tokens)
  | _, _, _, _, .nil => ⟨.emptyBlock, fun _ => continues_nil⟩
  | _, _, _, _, .cons hf hr => by
    obtain ⟨hblock, hcontinues⟩ := body_derives hr
    rw [tokens_append]
    rcases statement_derives hf with hfirst | ⟨hlast, hret⟩
    · exact ⟨hfirst _ hblock, fun h => hfirst.append (hcontinues h)⟩
    · -- A bare return is the last statement, so nothing was rendered behind it.
      obtain ⟨rfl, hempty⟩ := Bool.and_eq_true_iff.mp hlast
      rw [List.isEmpty_iff] at hempty
      subst hempty
      cases hr
      rw [tokens_nil, List.append_nil]
      exact ⟨.retstat hret, fun h => by cases h⟩

theorem elif_derives : ∀ {depth : Nat} {elifs : List Branch} {p : Pieces},
    ElifPieces s depth elifs p → Derives .elseifs p.tokens
  | _, _, _, .nil => .noElseifs
  | _, _, _, .cons hc hb hr =>
    derives_elseif (derives_exp (value_derives hc)) (body_derives hb).1 (elif_derives hr)

theorem else_derives : ∀ {depth : Nat} {otherwise : Option (List Item)} {p : Pieces},
    ElsePieces s depth otherwise p → Derives .elsePart p.tokens
  | _, _, _, .none => .noElse
  | _, _, _, .some hb => by
    rw [tokens_append]
    exact .elsePart (body_derives hb).1

end

/-- What is generated is the text of pieces that are a Lua chunk. -/
theorem generate_derives_chunk {unit : Option Ir.Program} {text : Bytes}
    (h : generate s unit = .ok text) :
    ∃ program pieces, unit = some program ∧ renderProgram s program = .ok pieces ∧
      pieces.text = text ∧ Derives .chunk pieces.tokens := by
  cases unit with
  | none => cases h
  | some program =>
    obtain ⟨pieces, hp, rfl⟩ := map_eq_ok.mp h
    exact ⟨program, pieces, rfl, hp, rfl, .chunk (body_derives (body_renderBody s _ _ hp)).1⟩

/-- A return in a loop stands in a block of its own, for the label follows it; a closure
that is called stands in parentheses. -/
theorem generate_derives_chunk_early_return :
    ∃ pieces, renderProgram {} ⟨[.whileLoop (.ident "n") [.returnValue (.integer (-1))],
        .call (.closure [] [.returnValue (.ident "n")]) []]⟩ = .ok pieces ∧
      pieces.text =
        "while n do do return -1 end; ::__continue__:: end;(function()return n;end)();" ∧
      Derives .chunk pieces.tokens := by
  have h : generate {} (some ⟨[.whileLoop (.ident "n") [.returnValue (.integer (-1))],
      .call (.closure [] [.returnValue (.ident "n")]) []]⟩) =
      .ok "while n do do return -1 end; ::__continue__:: end;(function()return n;end)();" :=
    ok_of_toOption (by decide +kernel)
  obtain ⟨_, pieces, hu, hp, ht, hd⟩ := generate_derives_chunk h
  cases hu
  exact ⟨pieces, hp, ht, hd⟩

end RustLua.Lua
