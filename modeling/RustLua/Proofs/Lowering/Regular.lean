import RustLua.Proofs.Ir.Regular
import RustLua.Proofs.Lowering.Steps
import RustLua.Proofs.Lua.Word
import RustLua.Proofs.Parser.Genuine

/-! # Lowering builds regular nodes

From a genuine tree whose segments are words, every node comes out regular. The place
of an expression says as what: a value where one is wanted, a statement elsewhere, and
in the head of a for loop a value or the head of a numeric loop. -/
namespace RustLua.Lowering

open RustLua.Tree RustLua.Parser

/-! ## Names -/

/-- Every token that can be a segment spells a word. -/
def Words (tokens : List Token) : Prop :=
  ∀ t ∈ tokens, startsSegment t.kind = true → Lua.isWord t.literal = true

variable {tokens : List Token}

theorem Words.segment (hw : Words tokens) {text : Bytes} (h : IsSegment tokens text) :
    Lua.isWord text = true := by
  obtain ⟨t, ht, hk, rfl⟩ := h
  exact hw t ht hk

theorem Words.name (hw : Words tokens) {text : Bytes} (h : IsName tokens text) :
    Lua.isWord text = true :=
  hw.segment h.isSegment

/-- A path of words is one word. -/
theorem isWord_flatName {segments : List Bytes} (hne : segments ≠ [])
    (h : ∀ s ∈ segments, Lua.isWord s = true) : Lua.isWord (flatName segments) = true := by
  induction segments with
  | nil => exact absurd rfl hne
  | cons first rest ih =>
    cases rest with
    | nil => simpa [flatName, Bytes.join] using h first (by simp)
    | cons second rest =>
      have hrest := ih (by simp) fun s hs => h s (List.mem_cons_of_mem _ hs)
      have hsplit : flatName (first :: second :: rest) =
          first ++ (Bytes.ofString "__" ++ flatName (second :: rest)) := by
        simp [flatName, Bytes.join]
      rw [hsplit]
      refine Lua.isWord_append (h first (by simp)) ?_
      rw [List.all_append, Lua.all_isWord hrest]
      rfl

theorem bindingName_word (hw : Words tokens) {binder : Binder} {p : Pattern} {name : Bytes}
    (hp : GenuinePattern tokens p) (h : bindingName binder p = .ok name) :
    Lua.isWord name = true := by
  cases hp with
  | ident hn =>
    simp only [bindingName] at h
    split at h
    · cases h
    · cases h; exact hw.name hn
  | wild => cases h; rfl
  | _ => cases h

theorem paramNames_words (hw : Words tokens) {binder : Binder} {params : List Param}
    {names : List Bytes} (hp : ∀ p ∈ params, GenuineParam tokens p)
    (h : paramNames binder params = .ok names) : ∀ n ∈ names, Lua.isWord n = true := by
  induction params generalizing names with
  | nil => cases h; simp
  | cons p ps ih =>
    obtain ⟨name, hname, rest, hrest, rfl⟩ : ∃ name, Lua.isWord name = true ∧
        ∃ rest, paramNames binder ps = .ok rest ∧ names = name :: rest := by
      simp only [paramNames] at h
      split at h
      · obtain ⟨_, hself, h⟩ := bind_eq_ok.mp h
        obtain ⟨rest, hr, hn⟩ := bind_eq_ok.mp h
        cases hself
        exact ⟨"self", by decide, rest, hr, (pure_eq_ok.mp hn).symm⟩
      · rename_i hreceiver
        obtain ⟨name, hb, h⟩ := bind_eq_ok.mp h
        obtain ⟨rest, hr, hn⟩ := bind_eq_ok.mp h
        cases hp p (by simp) with
        | receiver => exact absurd rfl hreceiver
        | plain hpat =>
          exact ⟨name, bindingName_word hw hpat hb, rest, hr, (pure_eq_ok.mp hn).symm⟩
    have htail := ih (fun q hq => hp q (List.mem_cons_of_mem _ hq)) hrest
    exact List.forall_mem_cons.mpr ⟨hname, htail⟩

theorem targetName_word (hw : Words tokens) {pos : Pos} {target : Expr} {name : Bytes}
    (ht : GenuineExpr tokens target) (h : targetName pos target = .ok name) :
    Lua.isWord name = true := by
  unfold targetName at h
  split at h
  · cases h
    cases ht with
    | path hs => exact hw.segment (hs.each _ (by simp))
  · cases h

/-! ## Sequences -/

/-- A contribution of regular statements or of words. -/
def Contribution.Regular : Contribution → Prop
  | .node item => item.Regular .statement
  | .externs names => ∀ n ∈ names, Lua.isWord n = true

theorem collect_regular {list : List Contribution} (h : ∀ c ∈ list, c.Regular) :
    ∀ i ∈ collect list, i.Regular .statement := by
  refine forall_mem_collect (fun _ => h _) fun names hne hnames => .externs hne fun n hn => ?_
  obtain ⟨c, hc, hm⟩ := hnames n hn
  cases c with
  | node item => cases hm
  | externs names => exact h _ hc n hm

/-! ## Values -/

theorem prepend_ne_nil (b : UInt8) (l : List Bytes) : prepend b l ≠ [] := by
  cases l <;> simp [prepend]

theorem splitFormat_ne_nil (template : Bytes) : splitFormat template ≠ [] := by
  unfold splitFormat
  split
  · simp
  · simp
  · split
    · exact prepend_ne_nil _ _
    · split
      · exact prepend_ne_nil _ _
      · split
        · simp
        · exact prepend_ne_nil _ _

theorem formatItem_regular {template : Bytes} {values : List Ir.Item}
    (hv : ∀ v ∈ values, v.Regular .value) : (formatItem template values).Regular .value := by
  have hpos : 0 < (splitFormat template).length :=
    List.length_pos_iff.mpr (splitFormat_ne_nil template)
  refine .format ?_ ?_ hv
  · simp only [List.length_map, List.length_range]
    omega
  · simp [Ir.slotNumbers]

theorem operator_plain (op : BinaryOp) :
    (operator op).isKnown = true ∧ (operator op).isCompound = false := by
  cases op <;> exact ⟨rfl, rfl⟩

theorem binary_regular {op : BinaryOp} {lhs rhs : Ir.Item} (hl : lhs.Regular .value)
    (hr : rhs.Regular .value) : (Ir.Item.binary (operator op) lhs rhs).Regular .value :=
  .binary (operator_plain op).1 (operator_plain op).2 hl hr

theorem minusOne_regular {i : Ir.Item} (h : i.Regular .value) : (minusOne i).Regular .value := by
  unfold minusOne
  split
  · split
    · exact .binary rfl rfl h .integer
    · exact .integer
  · exact .binary rfl rfl h .integer

/-! ## Places -/

/-- The head of a numeric loop. -/
inductive IsRangeHead : Ir.Item → Prop
  | mk {min max step : Ir.Item} (hmin : min.Regular .value) (hmax : max.Regular .value)
      (hs : step ≠ .missing → step.Regular .value) : IsRangeHead (.forRange [] min max step [])

/-- What may come out at a place. -/
def Place.Regular : Place → Ir.Item → Prop
  | .value, i => i.Regular .value
  | .statement, i | .tail, i => i.Regular .statement
  | .iterated, i => i.Regular .value ∨ IsRangeHead i

theorem Place.regular_finish {place : Place} {i : Ir.Item} (h : i.Regular .value) :
    place.Regular (place.finish i) := by
  cases place with
  | value => exact h
  | statement => exact .ofValue h
  | tail => exact .returnValue fun _ => h
  | iterated => exact .inl h

theorem Place.regular_literal {place : Place} (i : Ir.Item) (h : IsLiteralNode i) :
    place.Regular (place.finish i) := by
  refine regular_finish ?_
  cases h with
  | bool => exact .bool
  | string => exact .string
  | integer => exact .integer
  | decimal => exact .decimal

theorem Place.regular_statementOnly {place : Place} {what : String} {pos : Pos}
    {x : Except Rejection Ir.Item} (h : Ensures x (·.Regular .statement)) :
    Ensures (place.statementOnly what pos x) place.Regular := by
  refine ensures_statementOnly fun hp => h.imp fun i hi => ?_
  cases place with
  | value | iterated => cases hp
  | statement | tail => exact hi

theorem loopOver_regular {var : Bytes} {body : List Ir.Item} {head : Ir.Item}
    (hn : Lua.isWord var = true) (hb : ∀ i ∈ body, i.Regular .statement)
    (hh : Place.iterated.Regular head) : (loopOver var body head).Regular .statement := by
  rcases hh with hv | ⟨hmin, hmax, hs⟩
  · unfold loopOver
    split
    · cases hv
    · exact .forIn hn hv hb
  · exact .forRange hn hmin hmax hs hb

theorem withStep_regular {step head : Ir.Item} (hs : step.Regular .value)
    (hh : Place.iterated.Regular head) : Place.iterated.Regular (withStep step head) := by
  rcases hh with hv | ⟨hmin, hmax, _⟩
  · unfold withStep
    split
    · cases hv
    · exact .inl hv
  · exact .inr (.mk hmin hmax fun _ => hs)

/-! ## Trees -/

mutual

theorem lowerExpr_regular (hw : Words tokens) (place : Place) :
    (e : Expr) → GenuineExpr tokens e → Ensures (lowerExpr place e) place.Regular
  | .lit _, _ => ensures_lit Place.regular_literal
  | .path _ _, .path hs =>
    .pure (Place.regular_finish (.ident (isWord_flatName hs.nonempty fun s hm =>
      hw.segment (hs.each s hm))))
  | .call func args _, .call hf ha =>
    (lowerExpr_regular hw .value func hf).bind fun _ _ hf =>
      (lowerValues_regular hw args ha).bind fun _ _ ha =>
      .pure (Place.regular_finish (.call hf ha))
  | .methodCall receiver _ [step] _, .methodCall hr _ ha => ensures_methodCall fun hp _ => by
    subst hp
    exact (lowerExpr_regular hw .iterated receiver hr).bind fun _ _ hr =>
      (lowerExpr_regular hw .value step (ha step (by simp))).bind fun _ _ hs =>
        .pure (withStep_regular hs hr)
  | .methodCall _ _ [] _, _ | .methodCall _ _ (_ :: _ :: _) _, _ => .error
  | .field _ _ _, _ | .index _ _ _, _ | .ref _ _ _, _ | .cast _ _ _, _ | .letCond _ _ _, _
  | .matchOn _ _ _, _ | .structLit _ _ _, _ | .tryOp _ _, _ => .error
  | .binary _ left right _, .binary _ hl hr =>
    (lowerExpr_regular hw .value left hl).bind fun _ _ hl =>
      (lowerExpr_regular hw .value right hr).bind fun _ _ hr =>
      .pure (Place.regular_finish (binary_regular hl hr))
  | .assign _ value _, .assign ht hv => Place.regular_statementOnly <|
    (ensures_true _).bind fun _ hn _ => (lowerExpr_regular hw .value value hv).bind fun _ _ hv =>
      .pure (.varSet (targetName_word hw ht hn) hv)
  | .assignOp _ _ value _, .assignOp _ ht hv => Place.regular_statementOnly <|
    (ensures_true _).bind fun _ hn _ => (lowerExpr_regular hw .value value hv).bind fun _ _ hv =>
      .pure (.varSet (targetName_word hw ht hn)
        (binary_regular (.ident (targetName_word hw ht hn)) hv))
  | .unary _ _ _, _ => ensures_unary fun _ _ => Place.regular_literal
  | .paren inner _, .paren hi =>
    .ite (fun h => by subst h; exact lowerExpr_regular hw .iterated inner hi) fun _ =>
      (lowerExpr_regular hw .value inner hi).bind fun _ _ hi => .pure (Place.regular_finish hi)
  | .tuple elements _, .tuple he => (lowerValues_regular hw elements he).bind fun _ _ he =>
    .pure (Place.regular_finish (.array he))
  | .array elements none _, .array he _ => (lowerValues_regular hw elements he).bind fun _ _ he =>
    .pure (Place.regular_finish (.array he))
  | .array _ (some _) _, _ => .error
  | .block _ _ _ _, _ => .ite (fun _ => .error) fun _ => .error
  | .closure _ body _ _, .closure hp hb => by
    cases hb with
    | block hb =>
      obtain ⟨hs⟩ := hb
      exact (ensures_true _).bind fun _ hn _ => (lowerStmts_regular hw _ hs).bind fun _ _ hs =>
        .pure (Place.regular_finish (.closure (paramNames_words hw hp hn) (collect_regular hs)))
    | _ => exact .error
  | .ifElse cond (.mk stmts _) otherwise _, .ifElse hc (.mk hs) ho _ => Place.regular_statementOnly <|
    (lowerExpr_regular hw .value cond hc).bind fun _ _ hc =>
      (lowerStmts_regular hw stmts hs).bind fun _ _ hs =>
      (lowerElse_regular hw otherwise ho).bind fun _ _ ho =>
        .pure (.ifElif hc (collect_regular hs) ho.1 ho.2.1 ho.2.2)
  | .whileLoop cond (.mk stmts _) _ _, .whileLoop hc (.mk hs) => Place.regular_statementOnly <|
    (lowerExpr_regular hw .value cond hc).bind fun _ _ hc =>
      (lowerStmts_regular hw stmts hs).bind fun _ _ hs =>
      .pure (.whileLoop hc (collect_regular hs))
  | .loop (.mk stmts _) _ _, .loop (.mk hs) => Place.regular_statementOnly <|
    (lowerStmts_regular hw stmts hs).bind fun _ _ hs =>
      .pure (.whileLoop .bool (collect_regular hs))
  | .forLoop _ iterated (.mk stmts _) _ _, .forLoop hp hi (.mk hs) => Place.regular_statementOnly <|
    (ensures_true _).bind fun _ hn _ =>
      (lowerExpr_regular hw .iterated iterated hi).bind fun _ _ hi =>
      (lowerStmts_regular hw stmts hs).bind fun _ _ hs =>
        .pure (loopOver_regular (bindingName_word hw hp hn) (collect_regular hs) hi)
  | .breakOut [] none _, _ => Place.regular_statementOnly (.pure .breakLoop)
  | .continueOn [] _, _ => Place.regular_statementOnly (.pure .continueLoop)
  | .breakOut [] (some _) _, _ | .breakOut (_ :: _) _ _, _ | .continueOn (_ :: _) _, _ =>
    Place.regular_statementOnly .error
  | .returnWith none _, _ =>
    Place.regular_statementOnly (.pure (.returnValue fun hne => absurd rfl hne))
  | .returnWith (some e) _, .returnWith hv => Place.regular_statementOnly <|
    (lowerExpr_regular hw .value e (hv e rfl)).bind fun _ _ he => .pure (.returnValue fun _ => he)
  | .macroCall _ [] _ _, _ => ensures_macroCall_nil fun _ =>
    Place.regular_finish (.call (.ident (by decide)) (by simp))
  | .macroCall _ (e :: es) _ _, .macroCall _ ha => by
    refine ensures_macroCall (fun _ => ?_) fun _ _ _ hargs => ?_
    · exact (lowerValues_regular hw (e :: es) ha).imp fun _ ha =>
        Place.regular_finish (.call (.ident (by decide)) ha)
    · cases hargs
      exact (lowerValues_regular hw es (List.forall_mem_cons.mp ha).2).imp fun _ ha =>
        Place.regular_finish (formatItem_regular ha)
  | .range first last inclusive _, .range hf hl => .ite (fun hp => by
      subst hp
      refine (lowerBound_regular hw first hf).bind fun _ _ hmin =>
        (lowerBound_regular hw last hl).bind fun _ _ hmax =>
          .pure (.inr (.mk hmin ?_ fun hne => absurd rfl hne))
      split
      · exact minusOne_regular hmax
      · exact hmax) fun _ => .error

theorem lowerValues_regular (hw : Words tokens) :
    (es : List Expr) → (∀ e ∈ es, GenuineExpr tokens e) →
      Ensures (lowerValues es) fun items => ∀ i ∈ items, i.Regular .value
  | [], _ => .pure (by simp)
  | e :: es, h => (lowerExpr_regular hw .value e (List.forall_mem_cons.mp h).1).bind fun _ _ he =>
    (lowerValues_regular hw es (List.forall_mem_cons.mp h).2).bind fun _ _ hes =>
      .pure (List.forall_mem_cons.mpr ⟨he, hes⟩)

theorem lowerBound_regular (hw : Words tokens) :
    (o : Option Expr) → (∀ e ∈ o, GenuineExpr tokens e) →
      Ensures (lowerBound o) (·.Regular .value)
  | none, _ => .pure .integer
  | some e, h => lowerExpr_regular hw .value e (h e rfl)

theorem lowerElse_regular (hw : Words tokens) {isTail : Bool} :
    (o : Option Expr) → (∀ e ∈ o, GenuineExpr tokens e) → Ensures (lowerElse isTail o) fun p =>
      (∀ b ∈ p.1, b.cond.Regular .value) ∧ (∀ b ∈ p.1, ∀ i ∈ b.body, i.Regular .statement) ∧
        ∀ body ∈ p.2, ∀ i ∈ body, i.Regular .statement
  | none, _ => .pure (by simp)
  | some e, h => by
    cases h e rfl with
    | block hb =>
      obtain ⟨hs⟩ := hb
      exact (lowerStmts_regular hw _ hs).bind fun _ _ hs =>
        .pure (by simpa using collect_regular hs)
    | ifElse hc hb ho =>
      obtain ⟨hs⟩ := hb
      exact (lowerExpr_regular hw .value _ hc).bind fun _ _ hc =>
        (lowerStmts_regular hw _ hs).bind fun _ _ hs =>
        (lowerElse_regular hw _ ho).bind fun _ _ ho => .pure
          ⟨List.forall_mem_cons.mpr ⟨hc, ho.1⟩,
            List.forall_mem_cons.mpr ⟨collect_regular hs, ho.2.1⟩, ho.2.2⟩
    | _ => exact .error

theorem lowerStmts_regular (hw : Words tokens) {isTail : Bool} :
    (ss : List Stmt) → (∀ s ∈ ss, GenuineStmt tokens s) →
      Ensures (lowerStmts isTail ss) fun list => ∀ c ∈ list, c.Regular
  | [], _ => .pure (by simp)
  | s :: ss, h => (lowerStmt_regular hw s (List.forall_mem_cons.mp h).1).bind fun _ _ hs =>
    (lowerStmts_regular hw ss (List.forall_mem_cons.mp h).2).bind fun _ _ hss =>
      .pure (List.forall_mem_cons.mpr ⟨hs, hss⟩)

theorem lowerStmt_regular (hw : Words tokens) {isTail : Bool} :
    (s : Stmt) → GenuineStmt tokens s → Ensures (lowerStmt isTail s) Contribution.Regular
  | .binding _ _ none _ _, _ | .binding _ _ (some _) (some _) _, _ =>
    (ensures_true _).bind fun _ _ _ => .error
  | .binding _ _ (some e) none _, .binding hp hi _ => (ensures_true _).bind fun _ hn _ =>
    (lowerExpr_regular hw .value e (hi e rfl)).bind fun _ _ he =>
      .pure (.varDecl (bindingName_word hw hp hn) he)
  | .item i, .item hi => lowerItem_regular hw i hi
  | .expr e semi, .expr he => by
    refine (lowerExpr_regular hw _ e he).bind fun i _ hi => .pure ?_
    split at hi <;> exact hi

theorem lowerItem_regular (hw : Words tokens) :
    (i : Item) → GenuineItem tokens i → Ensures (lowerItem i) Contribution.Regular
  | .fn _ _ _ none _ _ _, .fn hn _ _ => .pure fun n hm => List.mem_singleton.mp hm ▸ hw.name hn
  | .fn _ _ _ (some (.mk stmts _)) _ _ _, .fn hn hp hb => by
    obtain ⟨hs⟩ := hb _ rfl
    exact (ensures_true _).bind fun _ hnames _ =>
      (lowerStmts_regular hw stmts hs).bind fun _ _ hs =>
      .pure (.function (hw.name hn) (paramNames_words hw hp hnames) (collect_regular hs))
  | .foreign _ _ _, .foreign hi => .pure fun n hn => by
    obtain ⟨i, him, rfl⟩ := List.mem_map.mp hn
    exact hw.name (hi i him)
  | .inlineModule _ items _, .inlineModule hn hi =>
    (lowerItems_regular hw items hi).bind fun _ _ hs =>
      .pure (.mod (hw.name hn) (collect_regular hs))
  | .fileModule _ _, _ | .use _ _, _ | .const _ _ _ _ _, _ | .impl _ _ _ _, _
  | .typeDef _ _ _, _ => .error

theorem lowerItems_regular (hw : Words tokens) :
    (is : List Item) → (∀ i ∈ is, GenuineItem tokens i) →
      Ensures (lowerItems is) fun list => ∀ c ∈ list, c.Regular
  | [], _ => .pure (by simp)
  | i :: is, h => (lowerItem_regular hw i (List.forall_mem_cons.mp h).1).bind fun _ _ hi =>
    (lowerItems_regular hw is (List.forall_mem_cons.mp h).2).bind fun _ _ his =>
      .pure (List.forall_mem_cons.mpr ⟨hi, his⟩)

end

/-- The program of a genuine file is regular. -/
theorem lowerFile_regular (hw : Words tokens) {file : File} {program : Ir.Program}
    (hf : ∀ i ∈ file.items, GenuineItem tokens i) (h : lowerFile file = .ok program) :
    program.Regular := by
  obtain ⟨list, hl, h⟩ := bind_eq_ok.mp h
  cases h
  exact collect_regular (lowerItems_regular hw file.items hf list hl)

end RustLua.Lowering
