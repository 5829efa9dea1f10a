import RustLua.Proofs.Lua.Label
import RustLua.Proofs.Lua.Rendered
import RustLua.Proofs.Lua.Scopes
import RustLua.Proofs.Lua.Tokens

/-! # Every jump goes to the end of its loop

Read back, a generated program has its labels at the ends of loop bodies and nowhere
else, and a jump only ever names the label of the loop right around it. -/
namespace RustLua.Lua

open Ir (Item Branch)

variable {depth : Nat}

/-- Nodes inside loops of their function whose labels are `enclosing`, the innermost one
first. There is no rule for a label but the one at the end of a loop body. -/
inductive WellLabelled (s : Settings) : List Bytes → Node → Prop
  | token {enclosing : List Bytes} {p : Piece} : WellLabelled s enclosing (.token p)
  | jump {enclosing : List Bytes} {target : Bytes} (ht : enclosing.head? = some target) :
      WellLabelled s enclosing (.jump target)
  | block {enclosing : List Bytes} {nodes : List Node}
      (hn : ∀ n ∈ nodes, WellLabelled s enclosing n) : WellLabelled s enclosing (.block nodes)
  | loop {enclosing : List Bytes} {nodes : List Node} {name : Bytes}
      (hl : name = s.label (enclosing.length + 1)) (hf : name ∉ enclosing)
      (hn : ∀ n ∈ nodes, WellLabelled s (name :: enclosing) n) :
      WellLabelled s enclosing (.loop (nodes ++ [Node.label name]))
  | function {enclosing : List Bytes} {nodes : List Node}
      (hn : ∀ n ∈ nodes, WellLabelled s [] n) : WellLabelled s enclosing (.function nodes)

/-- Pieces that are read as nodes with such labels. -/
def Labelled (s : Settings) (enclosing : List Bytes) (inHead : Bool) (p : Pieces) : Prop :=
  ∃ nodes, Scans inHead p nodes ∧ ∀ n ∈ nodes, WellLabelled s enclosing n

variable {s : Settings} {enclosing : List Bytes} {h : Bool} {p q e b : Pieces}

theorem Labelled.append (hp : Labelled s enclosing h p) (hq : Labelled s enclosing h q) :
    Labelled s enclosing h (p ++ q) := by
  obtain ⟨ns, hscan, hns⟩ := hp
  obtain ⟨ms, hscan', hms⟩ := hq
  exact ⟨ns ++ ms, hscan.append hscan', List.forall_mem_append.mpr ⟨hns, hms⟩⟩

theorem labelled_inert (hp : ∀ a ∈ p, a.isInert = true) : Labelled s enclosing h p := by
  refine ⟨p.map .token, scans_inert hp, fun n hn => ?_⟩
  obtain ⟨a, _, rfl⟩ := List.mem_map.mp hn
  exact .token

theorem Labelled.behind (hp : ∀ a ∈ p, a.isInert = true) (hq : Labelled s enclosing h q) :
    Labelled s enclosing h (p ++ q) :=
  (labelled_inert hp).append hq

theorem Labelled.before (hp : Labelled s enclosing h p) (hq : ∀ a ∈ q, a.isInert = true) :
    Labelled s enclosing h (p ++ q) :=
  hp.append (labelled_inert hq)

/-! ## Values -/

theorem labelled_parenthesized (hp : Labelled s enclosing h p) :
    Labelled s enclosing h (parenthesized p) :=
  (hp.behind (p := [.mark .parenOpen]) (by decide)).before (q := [.mark .parenClose]) (by decide)

theorem labelled_commaSeparated {list : List Pieces}
    (hl : ∀ p ∈ list, Labelled s enclosing h p) : Labelled s enclosing h (commaSeparated list) := by
  induction list with
  | nil => exact labelled_inert (by simp [commaSeparated])
  | cons first rest ih =>
    obtain ⟨hf, hr⟩ := List.forall_mem_cons.mp hl
    cases rest with
    | nil =>
      rw [commaSeparated, List.intercalate_singleton]
      exact hf
    | cons second rest =>
      rw [commaSeparated, List.intercalate_cons_cons]
      exact (hf.before (by decide)).append (ih hr)

theorem labelled_operand (parens : Bool) (hp : Labelled s enclosing h p.tokens) :
    Labelled s enclosing h (Pieces.tokens (if parens then parenthesized p else p)) := by
  cases parens with
  | true =>
    rw [if_pos rfl, tokens_parenthesized]
    exact labelled_parenthesized hp
  | false => exact hp

attribute [local simp] Piece.isInert

theorem isInert_integerPieces (n : Int64) : ∀ a ∈ integerPieces n, a.isInert = true := by
  unfold integerPieces
  split
  · simp [member]
  · split <;> simp

theorem isInert_decimalPieces (d : Double) : ∀ a ∈ decimalPieces d, a.isInert = true := by
  unfold decimalPieces
  split
  · simp
  · extract_lets sign size
    have hsign : ∀ a ∈ sign, a.isInert = true := by
      simp only [sign]
      split <;> simp
    split
    · exact List.forall_mem_append.mpr ⟨hsign, by simp [member]⟩
    · exact List.forall_mem_append.mpr ⟨hsign, by simp⟩

/-- A function starts without enclosing loops, whatever its name is. -/
theorem labelled_function (hp : ∀ a ∈ p, a.isInert = true) (params : List Bytes)
    (hb : Labelled s [] false b) :
    Labelled s enclosing h ([Piece.keyword .functionKw] ++ p ++ functionPieces params b) := by
  have hparams : Labelled s [] false
      (parenthesized (commaSeparated (params.map fun n => [.name n]))) := by
    refine labelled_parenthesized (labelled_commaSeparated fun p hp => ?_)
    obtain ⟨n, _, rfl⟩ := List.mem_map.mp hp
    exact labelled_inert (by simp)
  obtain ⟨nodes, hscan, hnodes⟩ := (hparams.append hb).behind hp
  refine ⟨[.function nodes], ?_, List.forall_mem_singleton.mpr (.function hnodes)⟩
  have hfunction := scans_function (h := h) hscan
  simpa [functionPieces] using hfunction

/-! ## Statements -/

/-- The labels of the loops around a statement, the innermost one first. -/
def Settings.labels (s : Settings) : Nat → List Bytes
  | 0 => []
  | depth + 1 => s.label (depth + 1) :: s.labels depth

theorem length_labels (depth : Nat) : (s.labels depth).length = depth := by
  induction depth with
  | zero => rfl
  | succ depth ih => simp [Settings.labels, ih]

theorem head?_labels (hd : depth ≠ 0) :
    (s.labels depth).head? = some (s.label depth) := by
  cases depth with
  | zero => exact absurd rfl hd
  | succ depth => rfl

theorem depth_of_mem_labels {name : Bytes} (hm : name ∈ s.labels depth) :
    ∃ k, 1 ≤ k ∧ k ≤ depth ∧ name = s.label k := by
  induction depth with
  | zero => cases hm
  | succ depth ih =>
    rcases List.mem_cons.mp hm with rfl | hm
    · exact ⟨depth + 1, by omega, by omega, rfl⟩
    · obtain ⟨k, h1, hk, rfl⟩ := ih hm
      exact ⟨k, h1, by omega, rfl⟩

/-- The label of a loop is none of those around it. -/
theorem label_not_mem_labels (depth : Nat) : s.label (depth + 1) ∉ s.labels depth := by
  intro hm
  obtain ⟨k, h1, hk, he⟩ := depth_of_mem_labels hm
  have := label_injective s (by omega) h1 he
  omega

theorem labelled_local (name : Bytes) (hp : Labelled s enclosing h p.tokens) :
    Labelled s enclosing h (localPieces name p).tokens := by
  have hlocal := (hp.behind (p := [.keyword .localKw, .name name, .mark .assign])
    (by simp)).before (q := [.mark .semicolon]) (by decide)
  simpa [localPieces] using hlocal

theorem isInert_externs (names : List Bytes) :
    ∀ a ∈ names.flatMap (externPieces s), a.isInert = true := by
  intro a ha
  obtain ⟨n, _, ha⟩ := List.mem_flatMap.mp ha
  have hall : ∀ a ∈ externPieces s n, a.isInert = true := by
    simp [externPieces, localPieces]
  exact hall a ha

theorem isInert_tokens (hp : ∀ a ∈ p, a.isInert = true) : ∀ a ∈ p.tokens, a.isInert = true :=
  fun a ha => hp a (List.mem_filter.mp ha).1

theorem labelled_jump (hd : depth ≠ 0) :
    Labelled s (s.labels depth) h
      (Pieces.tokens [.keyword .gotoKw, .blank, .name (s.label depth), .mark .semicolon]) := by
  have hjump : Labelled s (s.labels depth) h [.keyword .gotoKw, .name (s.label depth)] :=
    ⟨_, scans_jump _, List.forall_mem_singleton.mpr (.jump (head?_labels hd))⟩
  exact hjump.before (q := [.mark .semicolon]) (by decide)

theorem labelled_block (hb : Labelled s enclosing false b) :
    Labelled s enclosing false ([Piece.keyword .doKw] ++ b ++ [Piece.keyword .endKw]) := by
  obtain ⟨nodes, hscan, hnodes⟩ := hb
  exact ⟨_, scans_block hscan, List.forall_mem_singleton.mpr (.block hnodes)⟩

theorem labelled_return (isLast : Bool) {value : Option Pieces}
    (hv : ∀ v ∈ value, Labelled s enclosing false v.tokens) :
    Labelled s enclosing false (returnPieces isLast value).tokens := by
  have hreturn : Labelled s enclosing false
      ([Piece.keyword .returnKw] ++ (value.elim [] Pieces.tokens)) := by
    cases value with
    | none => exact labelled_inert (by decide)
    | some v => exact (hv v rfl).behind (by decide)
  cases isLast with
  | true =>
    have hlast := hreturn.before (q := [.mark .semicolon]) (by decide)
    cases value <;> simpa [returnPieces] using hlast
  | false =>
    have hblock := (labelled_block hreturn).before (q := [.mark .semicolon]) (by decide)
    cases value <;> simpa [returnPieces] using hblock

/-- A loop whose head and body are labelled. Its body ends in its label. -/
theorem labelled_loop {k : Keyword} (hk : k = .whileKw ∨ k = .forKw)
    (he : Labelled s (s.labels depth) true e.tokens)
    (hb : Labelled s (s.labels (depth + 1)) false b.tokens) :
    Labelled s (s.labels depth) false
      (Pieces.tokens ([Piece.keyword k] ++ e ++ loopPieces s (depth + 1) b)) := by
  obtain ⟨head, hscan, hhead⟩ := he
  obtain ⟨nodes, hscan', hnodes⟩ := hb
  have hbody := hscan'.append (scans_label (s.label (depth + 1)))
  have hloop : WellLabelled s (s.labels depth)
      (.loop (nodes ++ [.label (s.label (depth + 1))])) :=
    .loop (by rw [length_labels]) (label_not_mem_labels depth) hnodes
  have hall : Labelled s (s.labels depth) false
      ([Piece.keyword k] ++ e.tokens ++ [Piece.keyword .doKw] ++
      (b.tokens ++ [Piece.mark .colons, .name (s.label (depth + 1)), .mark .colons]) ++
        [Piece.keyword .endKw]) := by
    refine ⟨_, scans_loop hk hscan hbody, ?_⟩
    simp only [List.forall_mem_append, List.forall_mem_singleton]
    exact ⟨⟨.token, hhead⟩, hloop⟩
  have hend := hall.before (q := [.mark .semicolon]) (by decide)
  simpa [loopPieces] using hend

theorem labelled_forRange (name : Bytes) {first last : Pieces}
    {step : Option Pieces} (hf : Labelled s (s.labels depth) true first.tokens)
    (hl : Labelled s (s.labels depth) true last.tokens)
    (hs : ∀ v ∈ step, Labelled s (s.labels depth) true v.tokens)
    (hb : Labelled s (s.labels (depth + 1)) false b.tokens) :
    Labelled s (s.labels depth) false (Pieces.tokens
      ([Piece.keyword .forKw, .blank, .name name, .blank, .mark .assign, .blank] ++
        commaSeparated ([first, last] ++ step.toList) ++ loopPieces s (depth + 1) b)) := by
  have hlist : ∀ p ∈ ([first, last] ++ step.toList).map Pieces.tokens,
      Labelled s (s.labels depth) true p := by
    simpa [hf, hl] using hs
  refine labelled_loop (e := [Piece.blank, .name name, .blank, .mark .assign, .blank] ++
    commaSeparated ([first, last] ++ step.toList)) (.inr rfl) ?_ hb
  rw [tokens_append, tokens_commaSeparated]
  exact (labelled_commaSeparated hlist).behind (by simp)

theorem labelled_forIn (name : Bytes)
    (he : Labelled s (s.labels depth) true e.tokens)
    (hb : Labelled s (s.labels (depth + 1)) false b.tokens) :
    Labelled s (s.labels depth) false (Pieces.tokens
      ([Piece.keyword .forKw, .blank, .name name, .blank, .keyword .inKw, .blank] ++ e ++
        loopPieces s (depth + 1) b)) := by
  refine labelled_loop (e := [Piece.blank, .name name, .blank, .keyword .inKw, .blank] ++ e)
    (.inr rfl) ?_ hb
  rw [tokens_append]
  exact he.behind (by simp)

/-- Further branches of a conditional, behind any branch. -/
def ChainLabelled (s : Settings) (enclosing : List Bytes) (p : Pieces) : Prop :=
  ∀ ns, (∀ n ∈ ns, WellLabelled s enclosing n) → ∃ between ms, Chains p ns between ms ∧
    (∀ n ∈ between, WellLabelled s enclosing n) ∧ ∀ n ∈ ms, WellLabelled s enclosing n

theorem chainLabelled_nil : ChainLabelled s enclosing [] :=
  fun ns hns => ⟨[], ns, chains_nil, by simp, hns⟩

theorem ChainLabelled.append (hp : ChainLabelled s enclosing p) (hq : ChainLabelled s enclosing q) :
    ChainLabelled s enclosing (p ++ q) := by
  intro ns hns
  obtain ⟨between, ms, hchain, hbetween, hms⟩ := hp ns hns
  obtain ⟨others, ls, hchain', hothers, hls⟩ := hq ms hms
  exact ⟨between ++ others, ls, hchain.trans hchain',
    List.forall_mem_append.mpr ⟨hbetween, hothers⟩, hls⟩

theorem chainLabelled_elseif (he : Labelled s enclosing false e.tokens)
    (hb : Labelled s enclosing false b.tokens) :
    ChainLabelled s enclosing
      (Pieces.tokens ([Piece.blank, .keyword .elseifKw] ++ branchPieces e b)) := by
  intro ns hns
  obtain ⟨cond, hscan, hcond⟩ := he
  obtain ⟨ms, hscan', hms⟩ := hb
  refine ⟨[Node.block ns] ++ cond, ms, ?_, ?_, hms⟩
  · have hchain : Chains _ ns _ ms := chains_elseif hscan hscan'
    simpa [branchPieces] using hchain
  · exact List.forall_mem_append.mpr ⟨List.forall_mem_singleton.mpr (.block hns), hcond⟩

theorem chainLabelled_else (hb : Labelled s enclosing false b.tokens) :
    ChainLabelled s enclosing (Pieces.tokens ([Piece.blank, .keyword .elseKw, .blank] ++ b)) := by
  intro ns hns
  obtain ⟨ms, hscan, hms⟩ := hb
  refine ⟨[.block ns], ms, ?_, List.forall_mem_singleton.mpr (.block hns), hms⟩
  have hchain : Chains _ ns _ ms := chains_else hscan
  simpa using hchain

theorem labelled_if {m l : Pieces} (he : Labelled s enclosing false e.tokens)
    (hb : Labelled s enclosing false b.tokens) (hm : ChainLabelled s enclosing m.tokens)
    (hl : ChainLabelled s enclosing l.tokens) :
    Labelled s enclosing false (Pieces.tokens ([Piece.keyword .ifKw] ++ branchPieces e b ++ m ++ l ++
      [Piece.blank, .keyword .endKw, .mark .semicolon])) := by
  obtain ⟨cond, hscan, hcond⟩ := he
  obtain ⟨ns, hscan', hns⟩ := hb
  obtain ⟨between, ms, hchain, hbetween, hms⟩ := (hm.append hl) ns hns
  have hall : Labelled s enclosing false
      ([Piece.keyword .ifKw] ++ e.tokens ++ [Piece.keyword .thenKw] ++
      b.tokens ++ (m.tokens ++ l.tokens) ++ [Piece.keyword .endKw]) := by
    refine ⟨_, scans_if hscan hscan' hchain, ?_⟩
    simp only [List.forall_mem_append, List.forall_mem_singleton]
    exact ⟨⟨⟨.token, hcond⟩, hbetween⟩, .block hms⟩
  have hend := hall.before (q := [.mark .semicolon]) (by decide)
  simpa [branchPieces] using hend

/-! ## Whole programs -/

mutual

/-- A value has no labels outside of its closures, so it may stand in any loop. -/
theorem value_labelled : ∀ {i : Item} {p : Pieces}, ValuePieces s i p →
    ∀ enclosing h, Labelled s enclosing h p.tokens
  | _, _, .ident, _, _ => labelled_inert (by simp)
  | .bool value, _, .bool, _, _ => by
    cases value <;> exact labelled_inert (by decide)
  | _, _, .integer, _, _ => labelled_inert (isInert_tokens (isInert_integerPieces _))
  | _, _, .decimal, _, _ => labelled_inert (isInert_tokens (isInert_decimalPieces _))
  | _, _, .string, _, _ => labelled_inert (by simp)
  | .call func args, _, .call hf ha, enclosing, h => by
    have hcallee := labelled_operand (!isCallable func) (value_labelled hf enclosing h)
    have hargs := labelled_parenthesized (labelled_commaSeparated (list_labelled ha enclosing h))
    rw [tokens_append, tokens_parenthesized, tokens_commaSeparated]
    refine Labelled.append ?_ hargs
    cases hc : isCallable func <;> simpa [hc] using hcallee
  | _, _, .closure hb, _, _ => by
    rw [tokens_append, tokens_functionPieces]
    exact labelled_function (p := []) (by simp) _ (body_labelled hb)
  | _, _, .array he, enclosing, h => by
    rw [tokens_append, tokens_append, tokens_commaSeparated]
    exact ((labelled_commaSeparated (list_labelled he enclosing h)).behind (by decide)).before
      (by decide)
  | _, _, .binary _ hl hr, enclosing, h => by
    rw [tokens_append, tokens_append]
    exact ((labelled_operand _ (value_labelled hl enclosing h)).before
      (by simp)).append (labelled_operand _ (value_labelled hr enclosing h))
  | _, _, .format ha, enclosing, h => by
    have htemplate : ∀ t, Labelled s enclosing h (Pieces.tokens [.literal t]) :=
      fun t => labelled_inert (by simp)
    rw [tokens_append, tokens_parenthesized, tokens_commaSeparated]
    refine Labelled.behind (by simp [member])
      (labelled_parenthesized (labelled_commaSeparated ?_))
    exact List.forall_mem_cons.mpr ⟨htemplate _, slot_labelled ha enclosing h⟩

theorem list_labelled : ∀ {items : List Item} {list : List Pieces}, ListPieces s items list →
    ∀ enclosing h, ∀ p ∈ list.map Pieces.tokens, Labelled s enclosing h p
  | _, _, .nil, _, _ => by simp
  | _, _, .cons hf hr, enclosing, h =>
    List.forall_mem_cons.mpr ⟨value_labelled hf enclosing h, list_labelled hr enclosing h⟩

theorem slot_labelled : ∀ {values : List Item} {slots : List Int} {args : List Pieces},
    SlotPieces s values slots args →
      ∀ enclosing h, ∀ p ∈ args.map Pieces.tokens, Labelled s enclosing h p
  | _, _, _, .nil, _, _ => by simp
  | _, _, _, .cons _ hf hr, enclosing, h =>
    List.forall_mem_cons.mpr ⟨value_labelled hf enclosing h, slot_labelled hr enclosing h⟩

theorem option_labelled : ∀ {i : Item} {o : Option Pieces}, OptionPieces s i o →
    ∀ enclosing h, ∀ v ∈ o, Labelled s enclosing h v.tokens
  | _, _, .none, _, _ => by simp
  | _, _, .some hi, enclosing, h => by
    intro v hv
    cases hv
    exact value_labelled hi enclosing h

theorem statement_labelled : ∀ {depth : Nat} {isLast : Bool} {i : Item} {p : Pieces},
    StatementPieces s depth isLast i p → Labelled s (s.labels depth) false p.tokens
  | _, _, _, _, .ofValue hi => labelled_local _ (value_labelled hi _ _)
  | _, _, _, _, .ofCall hc => by
    rw [tokens_append]
    exact (value_labelled hc _ _).before (by decide)
  | _, _, .function name _ _, _, .function hb => by
    rw [tokens_append, tokens_append, tokens_functionPieces]
    exact (labelled_function (p := [.name name]) (by simp) _
      (body_labelled hb)).before (by decide)
  | _, _, _, _, .varDecl hv => labelled_local _ (value_labelled hv _ _)
  | _, _, .varSet name _, _, .varSet hv => by
    rw [tokens_append, tokens_append]
    exact ((value_labelled hv _ _).behind (by simp)).before (by decide)
  | _, _, _, _, .externs => labelled_inert (isInert_tokens (isInert_externs _))
  | _, _, _, _, .mod hi => by
    rw [tokens_append]
    exact (labelled_local _ (labelled_inert (by decide))).append (body_labelled hi)
  | _, _, _, _, .breakLoop _ => labelled_inert (by decide)
  | _, _, _, _, .continueLoop hd => labelled_jump hd
  | _, _, _, _, .returnValue hv => labelled_return _ (option_labelled hv _ _)
  | _, _, _, _, .ifElif hc hb he hl =>
    labelled_if (value_labelled hc _ _) (body_labelled hb) (elif_labelled he) (else_labelled hl)
  | _, _, _, _, .whileLoop hc hb => by
    have hloop := labelled_loop (.inl rfl) (value_labelled hc _ _) (body_labelled hb)
    simpa using hloop
  | _, _, _, _, .forRange hmin hmax hs hb =>
    labelled_forRange _ (value_labelled hmin _ _) (value_labelled hmax _ _)
      (option_labelled hs _ _) (body_labelled hb)
  | _, _, _, _, .forIn hi hb => labelled_forIn _ (value_labelled hi _ _) (body_labelled hb)

theorem body_labelled : ∀ {depth : Nat} {endsBlock : Bool} {items : List Item} {p : Pieces},
    BodyPieces s depth endsBlock items p → Labelled s (s.labels depth) false p.tokens
  | _, _, _, _, .nil => labelled_inert (by simp)
  | _, _, _, _, .cons hf hr => by
    rw [tokens_append]
    exact (statement_labelled hf).append (body_labelled hr)

theorem elif_labelled : ∀ {depth : Nat} {elifs : List Branch} {p : Pieces},
    ElifPieces s depth elifs p → ChainLabelled s (s.labels depth) p.tokens
  | _, _, _, .nil => chainLabelled_nil
  | _, _, _, .cons hc hb hr => by
    rw [tokens_append]
    exact (chainLabelled_elseif (value_labelled hc _ _) (body_labelled hb)).append
      (elif_labelled hr)

theorem else_labelled : ∀ {depth : Nat} {otherwise : Option (List Item)} {p : Pieces},
    ElsePieces s depth otherwise p → ChainLabelled s (s.labels depth) p.tokens
  | _, _, _, .none => chainLabelled_nil
  | _, _, _, .some hb => chainLabelled_else (body_labelled hb)

end

/-- A generated program, read back, has one label in each loop body, at its end and unlike
those of the loops around it in the same function; no label anywhere else; and jumps
only to the label of the innermost loop around them. The labels are names if the one
that is configured is. -/
theorem generate_wellLabelled {unit : Option Ir.Program} {text : Bytes}
    (h : generate s unit = .ok text) :
    (∃ program pieces nodes, unit = some program ∧ renderProgram s program = .ok pieces ∧
      pieces.text = text ∧ nodes? pieces.tokens = some nodes ∧
      ∀ n ∈ nodes, WellLabelled s [] n) ∧
    (isName s.continueLabel = true → ∀ depth, isName (s.label depth) = true) := by
  refine ⟨?_, isName_label⟩
  cases unit with
  | none => cases h
  | some program =>
    obtain ⟨pieces, hp, rfl⟩ := map_eq_ok.mp h
    obtain ⟨nodes, hscan, hnodes⟩ := body_labelled (body_renderBody s _ _ hp)
    exact ⟨program, pieces, nodes, rfl, hp, rfl, nodes?_of_scans hscan, hnodes⟩

/-- A loop in a loop has a label of its own; one in a closure starts over. -/
theorem generate_wellLabelled_closure_in_loop :
    ∃ pieces nodes, renderProgram { continueLabel := "l" } ⟨[.whileLoop
        (.closure [] [.whileLoop (.ident "b") [.continueLoop]])
        [.forIn "v" (.ident "t") [.continueLoop]]]⟩ = .ok pieces ∧
      pieces.text =
        "while function()while b do goto l; ::l:: end;end do for v in t do goto l_2; ::l_2:: end; ::l:: end;" ∧
      nodes? pieces.tokens = some nodes ∧
      (∀ n ∈ nodes, WellLabelled { continueLabel := "l" } [] n) ∧
      isName (Settings.label { continueLabel := "l" } 2) = true := by
  have h : generate { continueLabel := "l" } (some ⟨[.whileLoop
      (.closure [] [.whileLoop (.ident "b") [.continueLoop]])
      [.forIn "v" (.ident "t") [.continueLoop]]]⟩) = .ok
        "while function()while b do goto l; ::l:: end;end do for v in t do goto l_2; ::l_2:: end; ::l:: end;" :=
    ok_of_toOption (by decide +kernel)
  obtain ⟨⟨_, pieces, nodes, hu, hp, ht, hn, hw⟩, hname⟩ := generate_wellLabelled h
  cases hu
  exact ⟨pieces, nodes, hp, ht, hn, hw, hname (by decide) 2⟩

end RustLua.Lua
