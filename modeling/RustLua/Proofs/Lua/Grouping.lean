import RustLua.Proofs.Lua.Chunks
import RustLua.Proofs.Lua.Precedence

/-! # Rendered operators group as in the tree

Parentheses are put by looking at an operand and its operator only. That is enough:
what is rendered for a node is read back as that node wherever no operator that binds
tighter than its own follows (`ReadsAt`), and the operators around an operand without
parentheses never do. -/
namespace RustLua.Lua

open Ir (Item)

variable {o : Operator}

/-! ## Groups -/

/-- The number of open groups behind pieces, if they close none that they did not open. -/
def nest? : Nat → Pieces → Option Nat
  | depth, [] => some depth
  | depth, a :: rest =>
    if a.opens then nest? (depth + 1) rest
    else if a.closes then
      match depth with
      | 0 => none
      | depth + 1 => nest? depth rest
    else nest? depth rest

theorem nest?_append (depth : Nat) (p q : Pieces) :
    nest? depth (p ++ q) = (nest? depth p).bind fun d => nest? d q := by
  induction p generalizing depth with
  | nil => rfl
  | cons a p ih =>
    simp only [List.cons_append, nest?]
    split
    · exact ih _
    · split
      · cases depth with
        | zero => rfl
        | succ depth => exact ih _
      · exact ih _

/-- Pieces that leave as many groups open as there were. -/
def Balanced (p : Pieces) : Prop := ∀ depth, nest? depth p = some depth

/-- What a nonterminal does to the groups: the body of a function closes the one that
`function` opens, all others close their own. -/
def Nests : Category → Pieces → Prop
  | .funcbody, p => ∀ depth, nest? (depth + 1) p = some depth
  | _, p => Balanced p

theorem nests_of_derives {c : Category} {p : Pieces} (h : Derives c p) : Nests c p := by
  induction h <;>
    simp_all [Nests, Balanced, nest?_append, nest?, Piece.opens, Piece.closes]

theorem restWidth_append {depth after : Nat} {p : Pieces} (h : nest? depth p = some after)
    (isHead : Bool) (rest : Pieces) :
    restWidth isHead (depth + 1) (p ++ rest) =
      p.length + restWidth isHead (after + 1) rest := by
  induction p generalizing depth with
  | nil => cases h; simp
  | cons a p ih =>
    simp only [List.cons_append, restWidth, List.length_cons]
    simp only [nest?] at h
    by_cases ho : a.opens = true
    · rw [if_pos ho] at h ⊢
      rw [ih h]
      omega
    · rw [if_neg ho] at h ⊢
      by_cases hc : a.closes = true
      · rw [if_pos hc] at h ⊢
        cases depth with
        | zero => cases h
        | succ depth =>
          rw [ih h]
          omega
      · rw [if_neg hc] at h ⊢
        rw [ih h]
        omega

/-- Balanced pieces and a closing one end a group. -/
theorem restWidth_group {p : Pieces} (hp : Balanced p) {z : Piece} (ho : z.opens = false)
    (hc : z.closes = true) (isHead : Bool) (rest : Pieces) :
    restWidth isHead 1 (p ++ z :: rest) = p.length + 1 + restWidth isHead 0 rest := by
  rw [restWidth_append (hp 0), restWidth, ho, hc, if_neg (by simp), if_pos rfl]
  omega

theorem Balanced.append {p q : Pieces} (hp : Balanced p) (hq : Balanced q) :
    Balanced (p ++ q) := by
  intro depth
  rw [nest?_append, hp depth, Option.bind_some, hq depth]

theorem balanced_commaSeparated {list : List Pieces} (h : ∀ e ∈ list, Derives .exp e) :
    Balanced (commaSeparated list) := by
  cases list with
  | nil => exact fun _ => rfl
  | cons first rest => exact nests_of_derives (derives_explist h)

/-! ## Operands -/

/-- Pieces that read as one operand, whatever does not continue it behind them. -/
def Simple (p : Pieces) : Prop :=
  ∀ subexp limit rest, Stops limit rest → operand? subexp (p ++ rest) = some (.operand p, rest)

theorem simple_of_width {a : Piece} {p : Pieces} (ha : a.isMinus = false)
    (hw : ∀ limit rest, Stops limit rest → operandWidth (a :: p ++ rest) = (a :: p).length)
    (hg : ∀ rest, a = .mark .parenOpen → groupWidth (p ++ rest) < (a :: p).length) :
    Simple (a :: p) := by
  intro subexp limit rest hstop
  have hwidth := hw limit rest hstop
  rw [List.cons_append] at hwidth ⊢
  simp only [operand?, hwidth]
  rw [if_neg (by simp [ha]), if_neg, if_neg (by simp)]
  · rw [← List.cons_append, List.take_left' rfl, List.drop_left' rfl]
  · rintro ⟨hopen, heq⟩
    have hlt := hg rest hopen
    omega

theorem simple_name (n : Bytes) : Simple [.name n] :=
  simple_of_width rfl (fun _ _ h => by simp [operandWidth, h.restWidth_eq]) fun _ h => by cases h

theorem simple_word {a : Piece} (hm : a.isMinus = false) (hp : a ≠ .mark .parenOpen)
    (ha : ∀ rest, operandWidth (a :: rest) = 1) : Simple [a] :=
  simple_of_width hm (fun _ rest _ => ha rest) fun _ h => absurd h hp

/-- A table or a function. -/
theorem simple_group {a z : Piece} {p : Pieces} (hp : Balanced p) (hm : a.isMinus = false)
    (hne : a ≠ .mark .parenOpen) (ha : ∀ rest, operandWidth (a :: rest) = groupWidth rest)
    (ho : z.opens = false) (hc : z.closes = true) : Simple (a :: p ++ [z]) := by
  rw [List.cons_append]
  refine simple_of_width hm (fun _ rest _ => ?_) fun _ h => absurd h hne
  have hgroup := restWidth_group hp ho hc false rest
  rw [List.cons_append, ha, groupWidth, List.append_assoc, List.singleton_append, hgroup,
    restWidth_false]
  simp only [List.length_cons, List.length_append, List.length_nil]
  omega

/-- Pieces that an operand can start with, and that can be called. A group at their
beginning ends inside them. -/
structure Begins (p : Pieces) : Prop where
  width : ∀ rest, operandWidth (p ++ rest) = p.length + restWidth true 0 rest
  group : ∃ a q, p = a :: q ∧ a.isMinus = false ∧
    ∀ rest, a = .mark .parenOpen → groupWidth (q ++ rest) ≤ p.length

theorem begins_name (n : Bytes) : Begins [.name n] where
  width _ := rfl
  group := ⟨_, [], rfl, rfl, fun _ h => by cases h⟩

theorem begins_parenthesized {p : Pieces} (hp : Balanced p) : Begins (parenthesized p) where
  width rest := by
    have hgroup := restWidth_group hp (z := .mark .parenClose) rfl rfl true rest
    simp only [parenthesized, List.cons_append, List.append_assoc, List.nil_append, operandWidth,
      hgroup, List.length_cons, List.length_append, List.length_nil]
    omega
  group := by
    refine ⟨.mark .parenOpen, p ++ [.mark .parenClose], rfl, rfl, fun rest _ => ?_⟩
    have hgroup := restWidth_group hp (z := .mark .parenClose) rfl rfl false rest
    simp only [groupWidth, parenthesized, List.append_assoc, List.cons_append, List.nil_append,
      hgroup, restWidth_false, List.length_cons, List.length_append, List.length_nil]
    omega

/-- What continues an operand belongs to it. -/
theorem Begins.append {p x : Pieces} (hp : Begins p)
    (hx : ∀ rest, restWidth true 0 (x ++ rest) = x.length + restWidth true 0 rest) :
    Begins (p ++ x) where
  width rest := by
    rw [List.append_assoc, hp.width, hx, List.length_append]
    omega
  group := by
    obtain ⟨a, q, rfl, ha, hg⟩ := hp.group
    refine ⟨a, q ++ x, rfl, ha, fun rest hopen => ?_⟩
    have hle := hg (x ++ rest) hopen
    rw [List.append_assoc]
    simp only [List.length_append, List.length_cons] at hle ⊢
    omega

/-- An operand that is continued is no expression in parentheses. -/
theorem Begins.simple {p x : Pieces} (hp : Begins p) (hne : x ≠ [])
    (hx : ∀ rest, restWidth true 0 (x ++ rest) = x.length + restWidth true 0 rest) :
    Simple (p ++ x) := by
  have hlength := List.length_pos_iff.mpr hne
  have hwidth := (hp.append hx).width
  obtain ⟨a, q, rfl, ha, hg⟩ := hp.group
  rw [List.cons_append] at hwidth ⊢
  refine simple_of_width ha (fun _ rest h => ?_) fun rest hopen => ?_
  · rw [hwidth, h.restWidth_eq, Nat.add_zero]
  · have hle := hg (x ++ rest) hopen
    rw [List.append_assoc]
    simp only [List.length_append, List.length_cons] at hle ⊢
    omega

theorem restWidth_field (n : Bytes) (rest : Pieces) :
    restWidth true 0 ([.mark .dot, .name n] ++ rest) = 2 + restWidth true 0 rest := by
  simp [restWidth]

theorem restWidth_arguments {p : Pieces} (hp : Balanced p) (rest : Pieces) :
    restWidth true 0 (parenthesized p ++ rest) =
      (parenthesized p).length + restWidth true 0 rest := by
  have hgroup := restWidth_group hp (z := .mark .parenClose) rfl rfl true rest
  simp only [parenthesized, List.cons_append, List.append_assoc, List.nil_append, List.length_cons,
    List.length_append, List.length_nil]
  rw [restWidth]
  · simp only [Piece.isSuffix, Piece.opens, Bool.and_self, if_true, hgroup]
    omega
  · simp

/-! ## Expressions -/

/-- Pieces that read as `e` in front of anything that does not bind tighter than
`priority`, with any limit that is looser: reading goes on behind them with `e` on the left. -/
def ReadsAt (priority : Nat) (p : Pieces) (e : Reading) : Prop :=
  ∀ limit rest fuel r, limit < priority → Stops priority rest →
    climb? fuel limit e rest = some r → subexp? (fuel + p.length) limit (p ++ rest) = some r

theorem Simple.readsAt {p : Pieces} (hp : Simple p) (hne : p ≠ []) :
    ReadsAt unaryPriority p (.operand p) := by
  intro limit rest fuel r _ hstop hr
  obtain ⟨n, hn⟩ := Nat.exists_eq_succ_of_ne_zero (Nat.ne_of_gt (List.length_pos_iff.mpr hne))
  rw [hn, Nat.add_succ, subexp?, hp _ _ _ hstop]
  exact climb?_mono hr (by omega)

theorem readsAt_minus {a : Piece} {p : Pieces} (ha : a.isMinus = true) (hp : Simple p)
    (hne : p ≠ []) : ReadsAt unaryPriority (a :: p) (.minus (.operand p)) := by
  intro limit rest fuel r _ hstop hr
  have hfuel := climb?_pos hr
  obtain ⟨n, hn⟩ := Nat.exists_eq_succ_of_ne_zero (Nat.ne_of_gt (List.length_pos_iff.mpr hne))
  -- the operand of the sign ends where the whole does, for no operator binds tighter
  have hinner : subexp? (fuel + p.length) unaryPriority (p ++ rest) = some (.operand p, rest) := by
    rw [hn, Nat.add_succ, subexp?, hp _ _ _ hstop]
    exact climb?_stops (by omega) hstop _
  rw [List.length_cons, ← Nat.add_assoc, subexp?, List.cons_append]
  simp only [operand?, if_pos ha, hinner]
  exact climb?_mono hr (by omega)

theorem readsAt_parenthesized {priority : Nat} {p : Pieces} {e : Reading}
    (hp : ReadsAt priority p e) (hb : Balanced p) (hpos : 0 < priority) :
    ReadsAt unaryPriority (parenthesized p) e := by
  intro limit rest fuel r _ hstop hr
  have hinner : subexp? (fuel + p.length + 1) 0 (p ++ .mark .parenClose :: rest) =
      some (e, .mark .parenClose :: rest) :=
    subexp?_mono (hp 0 _ 1 _ hpos stops_parenClose (climb?_stops Nat.one_pos stops_parenClose e))
      (by omega)
  have hwidth : operandWidth (parenthesized p ++ rest) = (parenthesized p).length := by
    rw [(begins_parenthesized hb).width, hstop.restWidth_eq, Nat.add_zero]
  have hgroup : groupWidth (p ++ .mark .parenClose :: rest) = (parenthesized p).length := by
    have h := restWidth_group hb (z := .mark .parenClose) rfl rfl false rest
    simp only [groupWidth, h, restWidth_false, parenthesized, List.length_cons, List.length_append,
      List.length_nil]
    omega
  have hlength : (parenthesized p).length = p.length + 1 + 1 := by simp [parenthesized]
  have happend : parenthesized p ++ rest = .mark .parenOpen :: (p ++ .mark .parenClose :: rest) := by
    simp [parenthesized]
  rw [happend] at hwidth ⊢
  rw [hlength, ← Nat.add_assoc, ← Nat.add_assoc, subexp?]
  simp only [operand?, hwidth, hgroup, and_self, if_true]
  rw [if_neg (by decide), hinner]
  exact climb?_mono hr (by omega)

theorem readsAt_binary {left right : Nat} {p q : Pieces} {a b : Reading}
    (hp : ReadsAt left p a) (hq : ReadsAt right q b) (hl : o.priority ≤ left)
    (hr : o.priority < right) :
    ReadsAt o.priority (p ++ [.operator o] ++ q) (.binary o a b) := by
  intro limit rest fuel r hlimit hstop hclimb
  have hfuel := climb?_pos hclimb
  -- the right operand ends in front of what follows the whole
  have hright : subexp? (fuel + q.length) o.priority (q ++ rest) = some (b, rest) :=
    hq _ _ _ _ hr (hstop.mono (Nat.le_of_lt hr)) (climb?_stops hfuel hstop b)
  have hrest : climb? (fuel + q.length + 1) limit a (.operator o :: (q ++ rest)) = some r := by
    rw [climb?]
    simp only [List.head?_cons, Option.bind_some, Piece.binary?, if_pos hlimit, List.tail_cons, hright]
    exact climb?_mono hclimb (by omega)
  have hleft := hp limit _ _ r (by omega) (stops_operator hl) hrest
  have hfuels : fuel + q.length + 1 + p.length =
      fuel + (p ++ [Piece.operator o] ++ q).length := by
    simp only [List.length_append, List.length_cons, List.length_nil]
    omega
  rw [hfuels] at hleft
  simpa using hleft

theorem read?_of_readsAt {priority : Nat} {p : Pieces} {e : Reading} (h : ReadsAt priority p e)
    (hpos : 0 < priority) : read? p = some e := by
  have hr := h 0 [] 1 _ hpos stops_nil (climb?_stops Nat.one_pos stops_nil e)
  rw [List.append_nil, Nat.add_comm] at hr
  rw [read?, hr]

/-! ## Rendered operands -/

section
variable {s : Settings} {i : Item} {p : Pieces}

theorem balanced_value (h : ValuePieces s i p) : Balanced p.tokens :=
  nests_of_derives (derives_exp (value_derives h))

/-- What is called stands in parentheses unless it is a name or a call. -/
theorem begins_callee : ∀ {func : Item} {callee : Pieces}, ValuePieces s func callee →
    Begins (Pieces.tokens (if isCallable func then callee else parenthesized callee))
  | func, callee, h => by
    cases hc : isCallable func with
    | false =>
      rw [if_neg (by simp), tokens_parenthesized]
      exact begins_parenthesized (balanced_value h)
    | true =>
      rw [if_pos rfl]
      unfold isCallable at hc
      split at hc
      · cases h
        exact begins_name _
      · cases h with
        | call hf ha =>
          rw [tokens_append, tokens_parenthesized, tokens_commaSeparated]
          exact (begins_callee hf).append
            (restWidth_arguments (balanced_commaSeparated (list_derives ha)))
      · cases hc

theorem simple_numeral (digits : Bytes) : Simple [.numeral digits] :=
  simple_word rfl (by simp) fun _ => rfl

theorem simple_member (table field : String) : Simple (member table field) :=
  (begins_name table).simple (List.cons_ne_nil _ _) (restWidth_field field)

/-- An operand as it reads by itself. A negative number is a minus sign in front of its
size, and what is no number is a quotient in parentheses. -/
def operandReading : Item → Pieces → Reading
  | .integer n, p =>
    if n < 0 ∧ n ≠ Int64.minValue then .minus (.operand p.tail) else .operand p
  | .decimal d, p =>
    if d.isNaN then .binary .div (.operand [.numeral "0"]) (.operand [.numeral "0"])
    else if d.isNegative then .minus (.operand p.tail)
    else .operand p
  | _, p => .operand p

theorem readsAt_integer (n : Int64) :
    ReadsAt unaryPriority (integerPieces n) (operandReading (.integer n) (integerPieces n)) := by
  unfold integerPieces
  split
  · rename_i hmin
    have hread : operandReading (.integer n) (member "math" "mininteger") =
        .operand (member "math" "mininteger") := if_neg fun h => h.2 hmin
    rw [hread]
    exact (simple_member _ _).readsAt (by simp [member])
  · rename_i hmin
    split
    · rename_i hneg
      simp only [operandReading, if_pos (And.intro hneg hmin)]
      exact readsAt_minus rfl (simple_numeral _) (by simp)
    · rename_i hneg
      simp only [operandReading, if_neg fun h : n < 0 ∧ n ≠ Int64.minValue => hneg h.1]
      exact (simple_numeral _).readsAt (by simp)

theorem readsAt_signed {q : Pieces} (negative : Bool) (hq : Simple q) (hne : q ≠ []) :
    let p : Pieces := (if negative then [.mark .minus] else []) ++ q
    ReadsAt unaryPriority p (if negative then .minus (.operand p.tail) else .operand p) := by
  cases negative with
  | true => exact readsAt_minus rfl hq hne
  | false => exact hq.readsAt hne

theorem readsAt_decimal (d : Double) :
    ReadsAt unaryPriority (decimalPieces d) (operandReading (.decimal d) (decimalPieces d)) := by
  unfold decimalPieces
  split
  · rename_i hnan
    simp only [operandReading, if_pos hnan]
    have hzero : ReadsAt unaryPriority [.numeral "0"] (.operand [.numeral "0"]) :=
      (simple_numeral _).readsAt (by simp)
    have hquotient : ReadsAt Operator.div.priority
        [.numeral "0", .operator .div, .numeral "0"] _ :=
      readsAt_binary (o := .div) hzero hzero (by decide) (by decide)
    exact readsAt_parenthesized hquotient (fun _ => rfl) (by decide)
  · rename_i hnan
    simp only [operandReading, if_neg hnan]
    split
    · exact readsAt_signed _ (simple_member _ _) (by simp [member])
    · exact readsAt_signed _ (simple_numeral _) (by simp)

theorem simple_closure (params : List Bytes) {body : Pieces} (hb : Derives .block body) :
    Simple ([Piece.keyword .functionKw] ++ functionPieces params body) := by
  have hnames : Balanced (commaSeparated (params.map fun n => [.name n])) := by
    refine balanced_commaSeparated (List.forall_mem_map.mpr fun n _ => ?_)
    exact Derives.prefixExp (.varPrefix .name)
  have hhead : Balanced (parenthesized (commaSeparated (params.map fun n => [.name n]))) := by
    intro depth
    simp [parenthesized, nest?, nest?_append, Piece.opens, Piece.closes, hnames (depth + 1)]
  exact simple_group (hhead.append (nests_of_derives hb)) rfl (by simp) (fun _ => rfl) rfl rfl

theorem simple_array {list : List Pieces} (h : ∀ e ∈ list, Derives .exp e) :
    Simple ([Piece.mark .braceOpen] ++ commaSeparated list ++ [Piece.mark .braceClose]) :=
  simple_group (balanced_commaSeparated h) rfl (by simp) (fun _ => rfl) rfl rfl

/-- Operands other than operators read by themselves. -/
theorem readsAt_operand (h : ValuePieces s i p) (hi : ∀ op lhs rhs, i ≠ .binary op lhs rhs) :
    ReadsAt unaryPriority p.tokens (operandReading i p.tokens) := by
  cases h with
  | ident => exact (simple_name _).readsAt (by simp)
  | @bool value =>
    cases value <;> exact (simple_word rfl (by simp) fun _ => rfl).readsAt (by simp)
  | integer =>
    rw [tokens_integerPieces]
    exact readsAt_integer _
  | decimal =>
    rw [tokens_decimalPieces]
    exact readsAt_decimal _
  | string => exact (simple_word rfl (by simp) fun _ => rfl).readsAt (by simp)
  | call hf ha =>
    rw [tokens_append, tokens_parenthesized, tokens_commaSeparated]
    have hargs := restWidth_arguments (balanced_commaSeparated (list_derives ha))
    exact ((begins_callee hf).simple (by simp [parenthesized]) hargs).readsAt
      (by simp [parenthesized])
  | closure hb =>
    rw [tokens_append, tokens_functionPieces]
    exact (simple_closure _ (body_derives hb).1).readsAt (by simp)
  | array he =>
    rw [tokens_append, tokens_append, tokens_commaSeparated]
    exact (simple_array (list_derives he)).readsAt (by simp)
  | binary => exact absurd rfl (hi _ _ _)
  | @format fragments _ _ _ ha =>
    rw [tokens_append, tokens_parenthesized, tokens_commaSeparated]
    have htemplate : Derives .exp [.literal (template fragments)] := .literal
    have hargs := restWidth_arguments (balanced_commaSeparated
      (List.forall_mem_cons.mpr ⟨htemplate, slot_derives ha⟩))
    have hformat := (begins_name "string").append (restWidth_field "format")
    exact (hformat.simple (by simp [parenthesized]) hargs).readsAt (by simp [parenthesized])

end

/-! ## Rendered trees -/

/-- The tree of a value as a reading: operators are nodes, and everything else is an
operand that reads by itself. -/
def reading (s : Settings) : Item → Except Gap Reading
  | .binary op lhs rhs => do
    let o ← operatorOf op
    let left ← reading s lhs
    let right ← reading s rhs
    return .binary o left right
  | i => do
    let pieces ← renderItem s .value i
    return operandReading i pieces.tokens

/-- How tightly the outermost operator binds. -/
def priorityOf : Item → Nat
  | .binary op _ _ => ((Operator.ofIr? op).map Operator.priority).getD 0
  | _ => unaryPriority

/-- The renderer's levels are in the order of the priorities. -/
theorem priority_eq_level (o : Operator) :
    o.priority = if o.level ≤ 7 then o.level else o.level + 1 := by
  cases o <;> rfl

/-- An operand without parentheses binds at least as tightly as its operator, and tighter
on the right. -/
theorem priority_le_of_not_needsParens {isRight : Bool} {i : Item}
    (h : needsParens o.level isRight i = false) (hi : 0 < priorityOf i) :
    o.priority ≤ priorityOf i ∧ (isRight = true → o.priority < priorityOf i) := by
  have hunary := o.priority_lt_unary
  unfold priorityOf at hi ⊢
  split
  · rename_i op l r
    cases hop : Operator.ofIr? op with
    | none => simp [hop] at hi
    | some o' =>
      simp only [needsParens, hop, Bool.or_eq_false_iff, Bool.and_eq_false_iff, decide_eq_false_iff_not]
        at h
      simp only [Option.map_some, Option.getD_some, priority_eq_level]
      refine ⟨by split <;> split <;> omega, fun hr => ?_⟩
      have hne : o'.level ≠ o.level := by
        rcases h.2 with hf | hne
        · rw [hr] at hf; cases hf
        · exact hne
      split <;> split <;> omega
  · exact ⟨Nat.le_of_lt hunary, fun _ => hunary⟩

theorem readsAt_side {isRight : Bool} {i : Item} {p : Pieces} {e : Reading}
    (h : ReadsAt (priorityOf i) p.tokens e) (hb : Balanced p.tokens) (hi : 0 < priorityOf i) :
    ∃ priority, ReadsAt priority
        (Pieces.tokens (if needsParens o.level isRight i then parenthesized p else p)) e ∧
      o.priority ≤ priority ∧ (isRight = true → o.priority < priority) := by
  have hunary := o.priority_lt_unary
  cases hn : needsParens o.level isRight i with
  | true =>
    rw [if_pos rfl, tokens_parenthesized]
    exact ⟨_, readsAt_parenthesized h hb hi, Nat.le_of_lt hunary, fun _ => hunary⟩
  | false => exact ⟨_, h, priority_le_of_not_needsParens hn hi⟩

theorem priorityOf_binary {op : Ir.BinaryOp} (h : operatorOf op = .ok o)
    (lhs rhs : Item) : priorityOf (.binary op lhs rhs) = o.priority := by
  unfold operatorOf at h
  split at h
  · rename_i o' ho
    cases h
    simp [priorityOf, ho]
  · cases h

/-- What a value renders to is read back as its tree. -/
theorem readsAt_renderItem (s : Settings) {i : Item} {p : Pieces}
    (h : renderItem s .value i = .ok p) :
    ∃ e, reading s i = .ok e ∧ ReadsAt (priorityOf i) p.tokens e ∧ 0 < priorityOf i := by
  fun_induction reading s i generalizing p with
  | case1 op lhs rhs ihl ihr =>
    rw [renderItem] at h
    obtain ⟨o, ho, h⟩ := bind_eq_ok.mp h
    obtain ⟨left, hl, h⟩ := bind_eq_ok.mp h
    obtain ⟨right, hr, h⟩ := bind_eq_ok.mp h
    cases h
    have hleft : ValuePieces s lhs left := gives_renderItem s .value lhs left hl
    have hright : ValuePieces s rhs right := gives_renderItem s .value rhs right hr
    obtain ⟨a, ha, hreada, hposa⟩ := ihl hl
    obtain ⟨b, hb, hreadb, hposb⟩ := ihr hr
    obtain ⟨m, hm, hle, _⟩ :=
      @readsAt_side o false _ _ _ hreada (balanced_value hleft) hposa
    obtain ⟨n, hn, _, hlt⟩ :=
      @readsAt_side o true _ _ _ hreadb (balanced_value hright) hposb
    refine ⟨.binary o a b, by rw [ho, ha, hb]; rfl, ?_⟩
    rw [priorityOf_binary ho, Place.finishValue, tokens_append, tokens_append]
    exact ⟨readsAt_binary hm hn hle (hlt rfl), o.priority_pos⟩
  | case2 i hi =>
    have hvalue : ValuePieces s i p := gives_renderItem s .value i p h
    have hpriority : priorityOf i = unaryPriority := by
      unfold priorityOf
      split
      · exact absurd rfl (hi _ _ _)
      · rfl
    rw [h, hpriority]
    exact ⟨_, rfl, readsAt_operand hvalue hi, by decide⟩

/-- A tree of operators renders to pieces that Lua, by its own priorities and grouping to
the left, reads as exactly that tree, whatever its operands are. -/
theorem read?_renderItem {s : Settings} {tree : Item} {pieces : Pieces}
    (h : renderItem s .value tree = .ok pieces) :
    ∃ e, reading s tree = .ok e ∧ read? pieces.tokens = some e := by
  obtain ⟨e, he, hread, hpos⟩ := readsAt_renderItem s h
  exact ⟨e, he, read?_of_readsAt hread hpos⟩

/-- `a-(-1*b-(function()end)())`: the difference on the right is in parentheses, and the
product inside it is not, although it starts with a minus sign. -/
theorem read?_renderItem_nested_difference :
    ∃ pieces, renderItem {} .value (.binary .sub (.ident "a") (.binary .sub
        (.binary .mul (.integer (-1)) (.ident "b")) (.call (.closure [] []) []))) = .ok pieces ∧
      pieces.tokens = [.name "a", .operator .sub, .mark .parenOpen, .mark .minus, .numeral "1",
        .operator .mul, .name "b", .operator .sub, .mark .parenOpen, .keyword .functionKw,
        .mark .parenOpen, .mark .parenClose, .keyword .endKw, .mark .parenClose,
        .mark .parenOpen, .mark .parenClose, .mark .parenClose] ∧
      read? pieces.tokens = some (.binary .sub (.operand [.name "a"]) (.binary .sub
        (.binary .mul (.minus (.operand [.numeral "1"])) (.operand [.name "b"]))
        (.operand [.mark .parenOpen, .keyword .functionKw, .mark .parenOpen, .mark .parenClose,
          .keyword .endKw, .mark .parenClose, .mark .parenOpen, .mark .parenClose]))) := by
  refine ⟨_, rfl, rfl, ?_⟩
  obtain ⟨e, he, hread⟩ := @read?_renderItem {} (.binary .sub (.ident "a") (.binary .sub
    (.binary .mul (.integer (-1)) (.ident "b")) (.call (.closure [] []) []))) _ rfl
  cases he
  exact hread

end RustLua.Lua
