import RustLua.Proofs.Lowering.Walk

/-! # Extern names come together

Functions without a body and foreign blocks declare extern names. All names that one sequence of
items or statements declares stand in one node, at the place of the first declaration that has
any; nested sequences have nodes of their own. Every other member of the sequence has its own
node, and these stay in order. -/

namespace RustLua.Tree

/-- A statement at its place. Only the last one of a block can be in tail position. -/
def Stmt.site (isLast : Bool) : Stmt → Site
  | .expr e semi => ⟨.expr e semi, isLast && !semi⟩
  | s => ⟨s, false⟩

def Site.isDeclaration (site : Site) : Bool := site.stmt.externNames?.isSome

def Site.names (site : Site) : List Bytes := site.stmt.externNames?.getD []

/-- The statements of a block, each at its place. -/
def sites (isTail : Bool) : List Stmt → List Site
  | [] => []
  | s :: ss => s.site (isTail && ss.isEmpty) :: sites isTail ss

def Sequence.members : Sequence → List Site
  | .items list => list.map fun i => ⟨.item i, false⟩
  | .block isTail stmts => sites isTail stmts

/-- The extern names of a whole sequence, in the order of the source. -/
def Sequence.externNames (seq : Sequence) : List Bytes := seq.members.flatMap Site.names

end RustLua.Tree

namespace RustLua.Lowering

open RustLua.Tree
open Ir (walkNode walkNodes)

def isExterns : Ir.Item → Bool
  | .externs _ => true
  | _ => false

/-- The nodes of a sequence, with its extern names where they belong. -/
structure Merged (seq : Sequence) (nodes : List Ir.Item) : Prop where
  /-- There is one node for them at most. -/
  atMostOne : nodes.countP isExterns ≤ 1
  /-- It has all the names, in order. -/
  complete : ∀ names, .externs names ∈ nodes → names = seq.externNames
  /-- There is none without a name. -/
  present : (∃ names, .externs names ∈ nodes) ↔ seq.externNames ≠ []
  /-- It stands behind the nodes of what precedes the first name. -/
  placed : ∀ before first after, seq.members = before ++ first :: after →
    (∀ site ∈ before, site.names = []) → first.names ≠ [] →
    ∃ front back, nodes = front ++ .externs seq.externNames :: back ∧
      List.Forall₂ LowersSite (before.filter (!·.isDeclaration)) front
  /-- The other nodes are those of the other members, in order. -/
  others : List.Forall₂ LowersSite (seq.members.filter (!·.isDeclaration))
    (nodes.filter (!isExterns ·))

/-! ## In one pass -/

/-- The nodes of the part of a sequence that has been passed. -/
structure Gathered where
  nodes : List Ir.Item := []
  /-- Where the node for extern names stands, once there is one. -/
  externsAt : Option Nat := none

def addNames (names : List Bytes) : Ir.Item → Ir.Item
  | .externs before => .externs (before ++ names)
  | item => item

/-- Later names go to the node that has been placed for the first ones. -/
def Gathered.add (g : Gathered) : Contribution → Gathered
  | .node item => { g with nodes := g.nodes ++ [item] }
  | .externs [] => g
  | .externs names =>
    match g.externsAt with
    | none => ⟨g.nodes ++ [.externs names], some g.nodes.length⟩
    | some i => { g with nodes := g.nodes.modify i (addNames names) }

theorem nodes_foldl_placed (cs : List Contribution) (front back : List Ir.Item)
    (names : List Bytes) :
    (cs.foldl Gathered.add ⟨front ++ .externs names :: back, some front.length⟩).nodes =
      front ++ .externs (names ++ cs.flatMap Contribution.names) ::
        (back ++ cs.filterMap Contribution.node?) := by
  induction cs generalizing names back with
  | nil => simp
  | cons c cs ih =>
    match c with
    | .node item =>
      have hnodes : front ++ .externs names :: back ++ [item] =
          front ++ .externs names :: (back ++ [item]) := List.append_assoc _ _ _
      have hstep := ih (back ++ [item]) names
      rw [List.append_assoc, ← hnodes] at hstep
      exact hstep
    | .externs [] => exact ih back names
    | .externs (n :: ns) =>
      have hnodes : (front ++ .externs names :: back).modify front.length (addNames (n :: ns)) =
          front ++ .externs (names ++ n :: ns) :: back := by
        simp [List.modify_eq_take_cons_drop, addNames]
      have hstep := ih back (names ++ n :: ns)
      rw [List.append_assoc, ← hnodes] at hstep
      exact hstep

theorem nodes_foldl (cs : List Contribution) (front : List Ir.Item) :
    (cs.foldl Gathered.add ⟨front, none⟩).nodes = front ++ collect cs := by
  induction cs generalizing front with
  | nil => exact (List.append_nil front).symm
  | cons c cs ih =>
    match c with
    | .node item => exact (ih (front ++ [item])).trans (List.append_assoc _ _ _)
    | .externs [] => exact ih front
    | .externs (n :: ns) => exact nodes_foldl_placed cs front [] (n :: ns)

/-- One pass, which comes back only to the node for the names, gives the same. -/
theorem collect_eq_foldl (cs : List Contribution) :
    collect cs = (cs.foldl Gathered.add {}).nodes :=
  (nodes_foldl cs []).symm

/-! ## Members -/

/-- What a member adds to its sequence. -/
inductive LowersMember (site : Site) : Contribution → Prop
  | declaration {names : List Bytes} (h : site.stmt.externNames? = some names) :
      LowersMember site (.externs names)
  | other {node : Ir.Item} (hs : site.stmt.externNames? = none) (h : LowersSite site node) :
      LowersMember site (.node node)

theorem lowersMember_stmt {s : Stmt} {isLast : Bool} {c : Contribution}
    (h : lowerStmt isLast s = .ok c) : LowersMember (s.site isLast) c := by
  cases s with
  | expr e semi =>
    obtain ⟨node, hnode, h⟩ := bind_eq_ok.mp h
    cases h
    exact .other rfl (.expr hnode)
  | binding | item =>
    obtain ⟨names, hnames, rfl⟩ | ⟨hnone, node, rfl, -⟩ := lowerStmt_eq_ok (by nofun) h
    · exact .declaration hnames
    · exact .other hnone (.other nofun h)

theorem lowersMember_items {list : List Item} {cs : List Contribution}
    (h : lowerItems list = .ok cs) :
    List.Forall₂ LowersMember (list.map fun i => ⟨.item i, false⟩) cs := by
  induction list generalizing cs with
  | nil =>
    cases h
    exact .nil
  | cons i list ih =>
    obtain ⟨c, hc, h⟩ := bind_eq_ok.mp h
    obtain ⟨cs, hcs, h⟩ := bind_eq_ok.mp h
    cases h
    have hitem : lowerStmt false (.item i) = .ok c := hc
    exact .cons (lowersMember_stmt hitem) (ih hcs)

theorem lowersMember_stmts {isTail : Bool} {stmts : List Stmt} {cs : List Contribution}
    (h : lowerStmts isTail stmts = .ok cs) :
    List.Forall₂ LowersMember (sites isTail stmts) cs := by
  induction stmts generalizing cs with
  | nil =>
    cases h
    exact .nil
  | cons s stmts ih =>
    obtain ⟨c, hc, h⟩ := bind_eq_ok.mp h
    obtain ⟨cs, hcs, h⟩ := bind_eq_ok.mp h
    cases h
    exact .cons (lowersMember_stmt hc) (ih hcs)

theorem LowersSequence.members {seq : Sequence} {nodes : List Ir.Item}
    (h : LowersSequence seq nodes) :
    ∃ cs, List.Forall₂ LowersMember seq.members cs ∧ nodes = collect cs := by
  cases seq with
  | items list =>
    obtain ⟨cs, hcs, hnodes⟩ := h
    exact ⟨cs, lowersMember_items hcs, hnodes⟩
  | block isTail stmts =>
    obtain ⟨cs, hcs, hnodes⟩ := h
    exact ⟨cs, lowersMember_stmts hcs, hnodes⟩

/-- The node of a statement holds no extern names of the sequence that it stands in. -/
theorem LowersSite.isExterns_eq_false {site : Site} {node : Ir.Item} (h : LowersSite site node) :
    isExterns node = false := by
  have hstray : Stop.stray ∉ walkNode false node := by
    cases h with
    | @expr e semi inTail _ h =>
      have hwalk := (follows_lowerExpr _ e node h).not_stray
      cases inTail <;> exact hwalk
    | other hs h =>
      exact fun hm => (follows_lowerStmt false _ _ h).not_stray (List.mem_cons_of_mem _ hm)
  cases node with
  | externs => exact absurd (List.mem_singleton_self _) hstray
  | _ => rfl

/-! ## Sequences -/

variable {members before after : List Site} {site first : Site} {c : Contribution}
  {cs : List Contribution} {names : List Bytes} {nodes : List Ir.Item}

theorem LowersMember.names_eq (h : LowersMember site c) : c.names = site.names := by
  cases h with
  | declaration hs | other hs =>
    rw [Site.names, hs]
    rfl

theorem names_eq (h : List.Forall₂ LowersMember members cs) :
    cs.flatMap Contribution.names = members.flatMap Site.names := by
  induction h with
  | nil => rfl
  | cons hc _ ih => rw [List.flatMap_cons, List.flatMap_cons, hc.names_eq, ih]

theorem others_cons (hc : LowersMember site c)
    (h : List.Forall₂ LowersSite (members.filter (!·.isDeclaration)) nodes) :
    List.Forall₂ LowersSite ((site :: members).filter (!·.isDeclaration))
      (c.node?.toList ++ nodes) := by
  cases hc with
  | declaration hs =>
    rw [List.filter_cons_of_neg (by simp [Site.isDeclaration, hs])]
    exact h
  | other hs hnode =>
    rw [List.filter_cons_of_pos (by simp [Site.isDeclaration, hs])]
    exact .cons hnode h

theorem filterMap_node?_cons (c : Contribution) (cs : List Contribution) :
    (c :: cs).filterMap Contribution.node? =
      c.node?.toList ++ cs.filterMap Contribution.node? := by
  cases c <;> rfl

theorem others_filterMap (h : List.Forall₂ LowersMember members cs) :
    List.Forall₂ LowersSite (members.filter (!·.isDeclaration))
      (cs.filterMap Contribution.node?) := by
  induction h with
  | nil => exact .nil
  | cons hc _ ih =>
    rw [filterMap_node?_cons]
    exact others_cons hc ih

theorem placeExterns_cons (h : c.names = []) :
    placeExterns names (c :: cs) = c.node?.toList ++ placeExterns names cs := by
  match c with
  | .node _ | .externs [] => rfl
  | .externs (_ :: _) => cases h

/-- Without a name there is no node for the names. -/
theorem placeExterns_nameless (h : cs.flatMap Contribution.names = []) :
    placeExterns names cs = cs.filterMap Contribution.node? := by
  induction cs with
  | nil => rfl
  | cons c cs ih =>
    rw [List.flatMap_cons, List.append_eq_nil_iff] at h
    rw [placeExterns_cons h.1, ih h.2, filterMap_node?_cons]

/-- The first declaration with a name is where the names are put. -/
theorem placeExterns_first (h : List.Forall₂ LowersMember (before ++ first :: after) cs)
    (hbefore : ∀ site ∈ before, site.names = []) (hfirst : first.names ≠ []) :
    ∃ front back, placeExterns names cs = front ++ .externs names :: back ∧
      List.Forall₂ LowersSite (before.filter (!·.isDeclaration)) front ∧
      List.Forall₂ LowersSite (after.filter (!·.isDeclaration)) back := by
  -- induction on what stands before the first name, each of which adds at most its own node
  induction before generalizing cs with
  | nil =>
    obtain ⟨c, cs, hc, hcs, rfl⟩ := List.forall₂_cons_left_iff.mp h
    rw [← hc.names_eq] at hfirst
    match c with
    | .node _ | .externs [] => exact absurd rfl hfirst
    | .externs (_ :: _) => exact ⟨[], _, rfl, .nil, others_filterMap hcs⟩
  | cons site before ih =>
    obtain ⟨c, cs, hc, hcs, rfl⟩ := List.forall₂_cons_left_iff.mp h
    obtain ⟨hsite, hbefore⟩ := List.forall_mem_cons.mp hbefore
    obtain ⟨front, back, hnodes, hfront, hback⟩ := ih hcs hbefore
    refine ⟨c.node?.toList ++ front, back, ?_, others_cons hc hfront, hback⟩
    rw [placeExterns_cons (hc.names_eq.trans hsite), hnodes, List.append_assoc]

/-- A sequence with names has a first member with a name. -/
theorem exists_first (h : members.flatMap Site.names ≠ []) :
    ∃ before first after, members = before ++ first :: after ∧
      (∀ site ∈ before, site.names = []) ∧ first.names ≠ [] := by
  induction members with
  | nil => exact absurd rfl h
  | cons site members ih =>
    by_cases hsite : site.names = []
    · rw [List.flatMap_cons, hsite] at h
      obtain ⟨before, first, after, rfl, hbefore, hfirst⟩ := ih h
      exact ⟨site :: before, first, after, rfl, List.forall_mem_cons.mpr ⟨hsite, hbefore⟩, hfirst⟩
    · exact ⟨[], site, members, rfl, nofun, hsite⟩

theorem isExterns_of_mem (h : List.Forall₂ LowersSite members nodes) :
    ∀ node ∈ nodes, isExterns node = false := by
  induction h with
  | nil => nofun
  | cons hnode _ ih => exact List.forall_mem_cons.mpr ⟨hnode.isExterns_eq_false, ih⟩

theorem filter_isExterns_eq_nil (h : List.Forall₂ LowersSite members nodes) :
    nodes.filter isExterns = [] :=
  List.filter_eq_nil_iff.mpr fun node hnode => by simp [isExterns_of_mem h node hnode]

theorem filter_not_isExterns_eq_self (h : List.Forall₂ LowersSite members nodes) :
    nodes.filter (!isExterns ·) = nodes :=
  List.filter_eq_self.mpr fun node hnode => by simp [isExterns_of_mem h node hnode]

/-- The nodes for extern names: one if there are names, and else none. -/
theorem filter_isExterns_placeExterns (h : List.Forall₂ LowersMember members cs) :
    (placeExterns names cs).filter isExterns =
      if members.flatMap Site.names = [] then [] else [.externs names] := by
  split
  · rename_i hnone
    rw [placeExterns_nameless ((names_eq h).trans hnone)]
    exact filter_isExterns_eq_nil (others_filterMap h)
  · rename_i hsome
    obtain ⟨before, first, after, rfl, hbefore, hfirst⟩ := exists_first hsome
    obtain ⟨front, back, hnodes, hfront, hback⟩ := placeExterns_first h hbefore hfirst
    rw [hnodes, List.filter_append, List.filter_cons_of_pos rfl, filter_isExterns_eq_nil hfront,
      filter_isExterns_eq_nil hback]
    rfl

theorem filter_not_isExterns_placeExterns (names : List Bytes) (cs : List Contribution) :
    (placeExterns names cs).filter (!isExterns ·) =
      (cs.filterMap Contribution.node?).filter (!isExterns ·) := by
  induction cs with
  | nil => rfl
  | cons c cs ih =>
    match c with
    | .node item =>
      have hnodes : (Contribution.node item :: cs).filterMap Contribution.node? =
          item :: cs.filterMap Contribution.node? := rfl
      rw [placeExterns, hnodes, List.filter_cons, List.filter_cons, ih]
    | .externs [] => exact ih
    | .externs (_ :: _) => rfl

/-- The nodes of the other members are left as they are. -/
theorem others_placeExterns (h : List.Forall₂ LowersMember members cs) :
    List.Forall₂ LowersSite (members.filter (!·.isDeclaration))
      ((placeExterns names cs).filter (!isExterns ·)) := by
  have hothers := others_filterMap h
  rwa [filter_not_isExterns_placeExterns, filter_not_isExterns_eq_self hothers]

theorem merged_of_lowersSequence {seq : Sequence} (h : LowersSequence seq nodes) :
    Merged seq nodes := by
  obtain ⟨cs, hcs, rfl⟩ := h.members
  have hcollect : collect cs = placeExterns seq.externNames cs :=
    congrArg (placeExterns · cs) (names_eq hcs)
  have hexterns : (collect cs).filter isExterns =
      if seq.externNames = [] then [] else [.externs seq.externNames] :=
    hcollect ▸ filter_isExterns_placeExterns hcs
  have hmem (names : List Bytes) :
      .externs names ∈ collect cs ↔ seq.externNames ≠ [] ∧ names = seq.externNames := by
    have hfilter : Ir.Item.externs names ∈ (collect cs).filter isExterns ↔
        .externs names ∈ collect cs := by simp [List.mem_filter, isExterns]
    rw [← hfilter, hexterns]
    split <;> simp [*]
  refine ⟨?_, fun names hnames => ((hmem names).mp hnames).2, ?_, ?_, ?_⟩
  · rw [List.countP_eq_length_filter, hexterns]
    split <;> simp
  · exact ⟨fun ⟨names, hnames⟩ => ((hmem names).mp hnames).1,
      fun hsome => ⟨seq.externNames, (hmem _).mpr ⟨hsome, rfl⟩⟩⟩
  · intro before first after hmembers hbefore hfirst
    rw [hmembers] at hcs
    obtain ⟨front, back, hnodes, hfront, -⟩ := placeExterns_first hcs hbefore hfirst
    exact ⟨front, back, hcollect.trans hnodes, hfront⟩
  · rw [hcollect]
    exact others_placeExterns hcs

/-- The extern names of a sequence come together in one node: in every sequence that is lowered,
and so in all sequences of a file, however they are nested. One pass over a sequence is enough. -/
theorem externs_come_together :
    (∀ seq nodes, LowersSequence seq nodes → Merged seq nodes) ∧
    (∀ file program, lowerFile file = .ok program →
      List.Forall₂ Merged file.walk.bodies program.walk.bodies) ∧
    ∀ cs, collect cs = (cs.foldl Gathered.add {}).nodes := by
  refine ⟨fun seq nodes => merged_of_lowersSequence, fun file program h => ?_, collect_eq_foldl⟩
  have hbodies : List.Forall₂ LowersSequence file.walk.bodies program.walk.bodies :=
    (follows_lowerFile file program h).bodies
  exact hbodies.imp fun _ _ => merged_of_lowersSequence

/-- The body of a function with an empty foreign block and a name behind a call. -/
def mainBody : List Stmt :=
  [.item (.foreign "C" [] ⟨1, 1⟩),
    .expr (.call (.path ["exit"] ⟨1, 15⟩) [] ⟨1, 15⟩) true,
    .item (.fn "exit" [] none none "C" false ⟨1, 23⟩)]

/-- Names at three levels: before and behind a module, in the module, and in a function. -/
def foreignFile : File :=
  let p : Pos := ⟨1, 1⟩
  let declared (name : Bytes) : Item := .fn name [] none none "C" false p
  let function (name : Bytes) (stmts : List Stmt) : Item :=
    .fn name [] none (some (.mk stmts p)) [] false p
  ⟨[function "first" [],
    .foreign "C" [] p,
    declared "lua_func",
    .inlineModule "util" [function "help" [], .foreign "C" [⟨"malloc", false, p⟩] p] p,
    .foreign "C" [⟨"puts", false, p⟩, ⟨"errno", true, p⟩] p,
    function "main" mainBody,
    declared "abort"]⟩

def foreignProgram : Ir.Program :=
  ⟨[.function "first" [] [],
    .externs ["lua_func", "puts", "errno", "abort"],
    .mod "util" [.function "help" [] [], .externs ["malloc"]],
    .function "main" [] [.call (.ident "exit") [], .externs ["exit"]]]⟩

theorem externs_come_together_nested :
    LowersSequence (.block false mainBody) [.call (.ident "exit") [], .externs ["exit"]] ∧
    Merged (.block false mainBody) [.call (.ident "exit") [], .externs ["exit"]] ∧
    lowerFile foreignFile = .ok foreignProgram ∧
    List.Forall₂ Merged foreignFile.walk.bodies foreignProgram.walk.bodies := by
  have hmain : LowersSequence (.block false mainBody)
      [.call (.ident "exit") [], .externs ["exit"]] := ⟨_, rfl, rfl⟩
  have hfile : lowerFile foreignFile = .ok foreignProgram := rfl
  exact ⟨hmain, externs_come_together.1 _ _ hmain, hfile, externs_come_together.2.1 _ _ hfile⟩

end RustLua.Lowering
