import RustLua.Proofs.Lowering.Positions
import RustLua.Proofs.Parser.Assignments
import RustLua.Proofs.Parser.PlacedFiles

/-! # An assignment with an operator and the same written out

`x op= E;` and `x = x op (E);` are the single statement of two functions. If one of the two
can be lowered, so can the other, and the programs are the same. If one is rejected, so is
the other, and for the same cause as long as the arguments of every macro call in one of them
could be read: what a failed reading of arguments sees may lie behind the value. -/
namespace RustLua.Lowering

open RustLua.Tree RustLua.Parser

variable {α : Type}

/-! ## Lowering -/

theorem SameOutcome.symm {x y : Except Rejection α} (h : SameOutcome x y) : SameOutcome y x :=
  Eq.symm h

theorem SameOutcome.trans {x y z : Except Rejection α} (hxy : SameOutcome x y)
    (hyz : SameOutcome y z) : SameOutcome x z :=
  Eq.trans hxy hyz

theorem SameOutcome.eq_ok_iff {x y : Except Rejection α} (h : SameOutcome x y) (a : α) :
    x = .ok a ↔ y = .ok a := by
  rw [← mapError_eq_ok (f := Rejection.cause), h, mapError_eq_ok]

theorem sameOutcome_of_bare_eq {e e' : Expr} (place : Place) (h : e.bare = e'.bare) :
    SameOutcome (lowerExpr place e) (lowerExpr place e') :=
  (sameOutcome_lowerExpr place e).symm.trans (h ▸ sameOutcome_lowerExpr place e')

theorem flatName_singleton (name : Bytes) : flatName [name] = name := by
  simp [flatName, Bytes.join]

theorem lowerExpr_assignOp (op : AssignOp) (name : Bytes) (v : Expr) (p q : Pos) :
    lowerExpr .statement (.assignOp op (.path [name] p) v q) =
      (fun rhs => .varSet name (.binary (operator op.base) (.ident name) rhs)) <$>
        lowerExpr .value v := by
  rw [lowerExpr]
  cases lowerExpr .value v <;> rfl

/-- The parentheses that are written out leave no trace. -/
theorem lowerExpr_assign_group (op : BinaryOp) (name : Bytes) (v : Expr) (p q r l m : Pos) :
    lowerExpr .statement
        (.assign (.path [name] p) (.binary op (.path [name] q) (.paren v r) l) m) =
      (fun rhs => .varSet name (.binary (operator op) (.ident name) rhs)) <$>
        lowerExpr .value v := by
  simp only [lowerExpr, flatName_singleton]
  cases lowerExpr .value v <;> rfl

/-! ## The two functions -/

/-- What stands in front of the body of a function. -/
structure Header where
  name : Bytes
  params : List Param
  returns : Option TypeText

def Header.bare (h : Header) : Header where
  name := h.name
  params := h.params.map Param.bare
  returns := h.returns.map TypeText.bare

/-- The function that is all of a file and has one expression, ended by a semicolon, as its
body: what stands in front, the expression, and where the body starts. -/
def single? (file : File) : Option (Header × Expr × Pos) :=
  match file.items with
  | [.fn name params returns (some (.mk [.expr e true] start)) _ _ _] =>
    some (⟨name, params, returns⟩, e, start)
  | _ => none

/-- The source is accepted as one function with a single statement, and `body` are the tokens
between its braces. -/
def IsFunction (source : Bytes) (header : Header) (body : List Token) (e : Expr) (file : File) :
    Prop :=
  parseFile source = .ok file ∧ ∃ front brace close last,
    Token.tokenize source = .ok (front ++ brace :: (body ++ [close, last])) ∧
    close.kind = .braceClose ∧ last.kind = .eof ∧ single? file = some (header, e, brace.pos)

/-- The tokens of `x op= E;`. -/
def Short (op : AssignOp) (name : Bytes) (value body : List Token) : Prop :=
  ∃ x sign semi : Token, body = x :: sign :: (value ++ [semi]) ∧ x.kind = .ident ∧
    x.literal = name ∧ sign.kind = op.kind ∧ semi.kind = .semicolon

/-- The tokens of `x = x op (E);`. -/
def Long (op : BinaryOp) (name : Bytes) (value body : List Token) : Prop :=
  ∃ x sign y o opening closing semi : Token,
    body = x :: sign :: y :: o :: opening :: (value ++ [closing, semi]) ∧
    (x.kind = .ident ∧ x.literal = name) ∧ sign.kind = .assign ∧
    (y.kind = .ident ∧ y.literal = name) ∧ o.kind = op.kind ∧
    opening.kind = .parenOpen ∧ closing.kind = .parenClose ∧ semi.kind = .semicolon

variable {source source' : Bytes} {header header' : Header} {body body' E F : List Token}
  {e e' : Expr} {file file' : File} {op : AssignOp} {name : Bytes}

theorem single?_eq_some {start : Pos} (h : single? file = some (header, e, start)) :
    ∃ abi isPublic pos, file.items = [.fn header.name header.params header.returns
      (some (.mk [.expr e true] start)) abi isPublic pos] := by
  unfold single? at h
  split at h
  · rename_i hitems
    cases h
    exact ⟨_, _, _, hitems⟩
  · cases h

theorem IsFunction.single (h : IsFunction source header body e file) :
    ∃ start, single? file = some (header, e, start) := by
  obtain ⟨-, front, brace, close, last, -, -, -, hsingle⟩ := h
  exact ⟨_, hsingle⟩

/-- The statement was read where the tokens of the body start. -/
theorem IsFunction.stmt_run {x y : Token} {more : List Token}
    (h : IsFunction source header (x :: y :: more) e file) (hx : x.kind = .ident)
    (hy : assigns y.kind = true) : ∃ depth s t close last,
      stmt (grammar depth) s = some (some (.expr e true), t) ∧ t.bag = s.bag ∧
      s.ahead = x :: y :: (more ++ [close, last]) ∧ s.noStruct = false ∧
      close.kind = .braceClose ∧ last.kind = .eof := by
  obtain ⟨haccepted, front, brace, close, last, htokens, hclose, hlast, hsingle⟩ := h
  obtain ⟨abi, isPublic, pos, hitems⟩ := single?_eq_some hsingle
  obtain ⟨tokens, htokens', hplaced⟩ := parseFile_placed haccepted
  cases htokens.symm.trans htokens'
  obtain ⟨depth, s, t, hs, hblock, hq⟩ :=
    (hplaced _ (hitems ▸ List.mem_singleton_self _)).blockRead
  obtain ⟨opening, rest, stmts, u, hahead, hmk, hparts, hq'⟩ := block_eq_some hblock hq
  obtain ⟨rfl, hpos⟩ : [.expr e true] = stmts ∧ brace.pos = opening.pos := by
    simpa using hmk
  obtain ⟨-, rfl⟩ := List.cons.inj <| Token.suffix_eq_of_pos htokens (List.suffix_append _ _)
    (hahead ▸ hs) hpos
  obtain ⟨o, w, hstmt, hw, ho⟩ := partsUntil_first (reads_stmt_grammar depth) hparts
    (by change x.kind ≠ _; rw [hx]; decide) (by change x.kind ≠ _; rw [hx]; decide) hq'
  obtain ⟨st, rfl⟩ : ∃ st, o = some st := by
    rw [stmt_assignment rfl hx hy] at hstmt
    obtain ⟨e', w', -, hfinish⟩ := bind_eq_some hstmt
    rw [← bind_pure_comp] at hfinish
    obtain ⟨st, w'', -, hpure⟩ := bind_eq_some hfinish
    cases hpure
    exact ⟨st, rfl⟩
  obtain rfl : st = .expr e true := by simpa using ho
  exact ⟨depth, _, w, close, last, hstmt, hw, rfl, rfl, hclose, hlast⟩

/-- If the arguments of every macro call of one of the two could be read, both are what they
look like, and the value is the same. -/
theorem assignments_agree (hshort : IsFunction source header body e file)
    (hlong : IsFunction source' header' body' e' file') (hbody : Short op name E body)
    (hbody' : Long op.base name F body') (hwords : E.map Token.word = F.map Token.word)
    (hclear : e.clear = true ∨ e'.clear = true) : ∃ v w p q p' q' r l m,
      v.bare = w.bare ∧ e = .assignOp op (.path [name] p) v q ∧
      e' = .assign (.path [name] p')
        (.binary op.base (.path [name] q') (.paren w r) l) m := by
  obtain ⟨x, sign, semi, rfl, hx, rfl, hsign, hsemi⟩ := hbody
  obtain ⟨x', sign', y, o, opening, closing, semi', rfl, ⟨hx', hname⟩, hsign', ⟨hy, hname'⟩, ho,
    hopening, hclosing, hsemi'⟩ := hbody'
  obtain ⟨depth, s, t, close, last, hrun, hq, hs, hflag, hclose, hlast⟩ :=
    hshort.stmt_run hx (hsign ▸ assigns_kind op)
  obtain ⟨depth', s', t', close', last', hrun', hq', hs', -, hclose', hlast'⟩ :=
    hlong.stmt_run hx' (hsign' ▸ rfl)
  obtain ⟨d, v, u, hv, huq, hu, rfl⟩ := short_assignment hs hx hsign hrun hq
  -- A value does not start with its end.
  have hhead : ((F ++ [closing, semi'] ++ [close', last']).headD beyond).kind ≠ .parenClose := by
    intro hend
    refine expression_at_end ?_ hv huq
    rcases E with - | ⟨a, E⟩ <;> rcases F with - | ⟨b, F⟩
    · exact .inl hsemi
    · cases hwords
    · cases hwords
    · exact .inr ((congrArg Prod.fst (List.cons.inj hwords).1).trans hend)
  obtain ⟨d', w, u', hw, huq', hu', hwclear, hwritten⟩ :=
    long_assignment hs' hx' hsign' hy ho hopening hhead hrun' hq'
  have hprevious : sign.kind = .braceClose ↔ opening.kind = .braceClose := by
    rw [hsign, hopening]
    cases op <;> decide
  -- The runs part at the end of the value: the one is at a semicolon, the other is not.
  have hne : u'.current.kind ≠ u.current.kind := by
    rcases hu' with hu' | hu' <;> rw [hu, hu'] <;> decide
  have hsame : v.bare = w.bare ∧ u'.ahead = closing :: semi' :: [close', last'] := by
    rcases hclear with hclear | hclear
    · have hvclear : v.clear = true := by
        simp only [Expr.clear, Bool.and_eq_true] at hclear
        exact hclear.2
      obtain ⟨hbare, ⟨-, hend⟩ | hkind⟩ := values_agree (A := semi :: [close, last])
        (B := closing :: semi' :: [close', last']) hwords (by simp) (by simp)
        (by simp [hclosing, ender]) hflag hprevious hv huq hvclear (by simp [hu, ender])
        (by simp [hu, hclose, hlast]) hw
      · exact ⟨hbare, hend⟩
      · exact absurd hkind hne
    · obtain ⟨hbare, ⟨hend, -⟩ | hkind⟩ := values_agree (A := closing :: semi' :: [close', last'])
        (B := semi :: [close, last]) hwords.symm (by simp) (by simp)
        (by simp [hsemi, ender]) hflag.symm hprevious.symm hw huq' (hwclear hclear)
        (by rcases hu' with hu' | hu' <;> simp [hu', ender])
        (by rcases hu' with hu' | hu' <;> simp [hu', hsemi', hclose', hlast']) hv
      · exact ⟨hbare.symm, hend⟩
      · exact absurd hkind.symm hne
  obtain ⟨hbare, hend⟩ := hsame
  have hlongForm := hwritten closing semi' [close', last'] hend hclosing hsemi'
  rw [hname, hname'] at hlongForm
  exact ⟨v, w, _, _, _, _, _, _, _, hbare, rfl, hlongForm⟩

/-! ## The programs -/

theorem sameOutcome_lowerFile {start start' : Pos}
    (hshort : single? file = some (header, e, start))
    (hlong : single? file' = some (header', e', start')) (hheader : header.bare = header'.bare)
    (h : SameOutcome (lowerExpr .statement e) (lowerExpr .statement e')) :
    SameOutcome (lowerFile file) (lowerFile file') := by
  obtain ⟨abi, isPublic, pos, hitems⟩ := single?_eq_some hshort
  obtain ⟨abi', isPublic', pos', hitems'⟩ := single?_eq_some hlong
  obtain ⟨name, params, returns⟩ := header
  obtain ⟨name', params', returns'⟩ := header'
  simp only [Header.bare, Header.mk.injEq] at hheader
  obtain ⟨rfl, hparams, hreturns⟩ := hheader
  have hbare (r : Option TypeText) : returnsValue (r.map TypeText.bare) = returnsValue r := by
    cases r <;> rfl
  have hvalue : returnsValue returns = returnsValue returns' := by
    rw [← hbare returns, hreturns, hbare]
  have hnames : SameOutcome (paramNames .parameter params) (paramNames .parameter params') :=
    (sameOutcome_paramNames _ params).symm.trans (hparams ▸ sameOutcome_paramNames _ params')
  have hstmts (isTail : Bool) : SameOutcome (lowerStmts isTail [.expr e true])
      (lowerStmts isTail [.expr e' true]) := by
    simp only [lowerStmts, lowerStmt, Bool.not_true, Bool.and_false, Bool.false_eq_true, if_false]
    exact (h.bind fun _ => rfl).bind fun _ => rfl
  simp only [lowerFile, hitems, hitems', lowerItems, lowerItem, hvalue]
  refine .bind (.bind (hnames.bind fun _ => (hstmts _).bind fun _ => rfl) fun _ => rfl) fun _ => rfl

theorem clear_of_lowerFile {program : Ir.Program} (h : lowerFile file = .ok program) :
    file.clear = true := by
  obtain ⟨list, hlist, -⟩ := bind_eq_ok.mp h
  exact clear_of_lowerItems _ list hlist

theorem clear_of_single? {start : Pos} (h : single? file = some (header, e, start)) :
    file.clear = e.clear := by
  obtain ⟨abi, isPublic, pos, hitems⟩ := single?_eq_some h
  simp [File.clear, hitems, Item.clear, Block.clear, Stmt.clear]

/-- The two functions lower to the same program or are both rejected, and for the same cause
if the arguments of all macro calls could be read. -/
theorem compound_assignment_as_written_out (hshort : IsFunction source header body e file)
    (hlong : IsFunction source' header' body' e' file') (hheader : header.bare = header'.bare)
    (hbody : Short op name E body) (hbody' : Long op.base name F body')
    (hwords : E.map Token.word = F.map Token.word) :
    (∀ program, lowerFile file = .ok program ↔ lowerFile file' = .ok program) ∧
      (file.clear = true ∨ file'.clear = true →
        SameOutcome (lowerFile file) (lowerFile file')) := by
  obtain ⟨start, hsingle⟩ := hshort.single
  obtain ⟨start', hsingle'⟩ := hlong.single
  have hsame (hclear : file.clear = true ∨ file'.clear = true) :
      SameOutcome (lowerFile file) (lowerFile file') := by
    rw [clear_of_single? hsingle, clear_of_single? hsingle'] at hclear
    obtain ⟨v, w, p, q, p', q', r, l, m, hbare, rfl, rfl⟩ :=
      assignments_agree hshort hlong hbody hbody' hwords hclear
    refine sameOutcome_lowerFile hsingle hsingle' hheader ?_
    rw [lowerExpr_assignOp, lowerExpr_assign_group]
    exact (sameOutcome_of_bare_eq .value hbare).map _
  refine ⟨fun program => ⟨fun h => ?_, fun h => ?_⟩, hsame⟩
  · exact ((hsame (.inl (clear_of_lowerFile h))).eq_ok_iff program).mp h
  · exact ((hsame (.inr (clear_of_lowerFile h))).eq_ok_iff program).mpr h

/-! ## Evaluation

The sources that follow start with the five tokens of `fn f()\x7b`. -/

def tokensOf (source : Bytes) : List Token := (Token.tokenize source).toOption.getD []

def tokenAt (source : Bytes) (i : Nat) : Token := (tokensOf source).getD i beyond

/-- The tokens from `i` on, without the last `n`. -/
def tokensBetween (source : Bytes) (i n : Nat) : List Token :=
  ((tokensOf source).take ((tokensOf source).length - n)).drop i

def Header.plain (h : Header) : Bool := h.name = "f" && h.params.isEmpty && h.returns.isNone

theorem Header.plain_bare {h : Header} (hplain : h.plain = true) : h.bare = ⟨"f", [], none⟩ := by
  obtain ⟨name, params, returns⟩ := h
  simp only [Header.plain, Bool.and_eq_true, decide_eq_true_eq, List.isEmpty_iff,
    Option.isNone_iff_eq_none] at hplain
  obtain ⟨⟨rfl, rfl⟩, rfl⟩ := hplain
  rfl

theorem exists_isFunction (source : Bytes) (close last : Token) (p : File → Bool)
    (htokens : (Token.tokenize source).toOption = some
      ((tokensOf source).take 4 ++ tokenAt source 4 :: (tokensBetween source 5 2 ++ [close, last])))
    (hends : close.kind = .braceClose ∧ last.kind = .eof)
    (h : ((parseFile source).toOption.any fun file => (single? file).any fun r =>
      r.2.2 = (tokenAt source 4).pos && (r.1.plain && p file)) = true) :
    ∃ header e file, IsFunction source header (tokensBetween source 5 2) e file ∧
      header.bare = ⟨"f", [], none⟩ ∧ p file = true := by
  simp only [Option.any_eq_true, Bool.and_eq_true, decide_eq_true_eq] at h
  obtain ⟨file, hfile, ⟨header, e, start⟩, hsingle, hstart, hplain, hp⟩ := h
  obtain rfl : start = (tokenAt source 4).pos := hstart
  exact ⟨header, e, file, ⟨ok_of_toOption hfile, _, _, close, last, ok_of_toOption htokens,
    hends.1, hends.2, hsingle⟩, Header.plain_bare hplain, hp⟩

def shiftBy : Bytes := "fn f()\x7bx<<=g(|a|\x7ba-=1;\x7d)+2;\x7d"
def shiftByGroup : Bytes := "fn f()\x7bx=x<<(g(|a|\x7ba-=1;\x7d)+2);\x7d"

theorem compound_assignment_as_written_out_closure :
    ∃ file file' program, parseFile shiftBy = .ok file ∧ parseFile shiftByGroup = .ok file' ∧
      lowerFile file = .ok program ∧ lowerFile file' = .ok program := by
  obtain ⟨header, e, file, hshort, hheader, hlowered⟩ := exists_isFunction shiftBy
    (tokenAt shiftBy 22) (tokenAt shiftBy 23) (fun file => (lowerFile file).toOption.isSome)
    (by decide +kernel) (by decide +kernel) (by decide +kernel)
  obtain ⟨header', e', file', hlong, hheader', -⟩ := exists_isFunction shiftByGroup
    (tokenAt shiftByGroup 26) (tokenAt shiftByGroup 27) (fun _ => true)
    (by decide +kernel) (by decide +kernel) (by decide +kernel)
  have hbody : Short .shl "x" (tokensBetween shiftBy 7 3) (tokensBetween shiftBy 5 2) :=
    ⟨tokenAt shiftBy 5, tokenAt shiftBy 6, tokenAt shiftBy 21, by decide +kernel⟩
  have hbody' : Long .shl "x" (tokensBetween shiftByGroup 10 4)
      (tokensBetween shiftByGroup 5 2) :=
    ⟨tokenAt shiftByGroup 5, tokenAt shiftByGroup 6, tokenAt shiftByGroup 7,
      tokenAt shiftByGroup 8, tokenAt shiftByGroup 9, tokenAt shiftByGroup 24,
      tokenAt shiftByGroup 25, by decide +kernel⟩
  obtain ⟨program, hprogram⟩ := Option.isSome_iff_exists.mp hlowered
  have hfile : lowerFile file = .ok program := ok_of_toOption hprogram
  have hsame := compound_assignment_as_written_out hshort hlong (hheader.trans hheader'.symm)
    hbody hbody' (by decide +kernel)
  exact ⟨file, file', program, hshort.1, hlong.1, hfile, (hsame.1 program).mp hfile⟩

def addResult : Bytes := "fn f()\x7bx+=println!(m!(a as T<))>-b;\x7d"
def addResultGroup : Bytes := "fn f()\x7bx=x+(println!(m!(a as T<))>-b);\x7d"

/-- The cause of a rejection, as text. -/
def causeOf? (file : File) : Option Bytes :=
  match lowerFile file with
  | .ok _ => none
  | .error r => some r.cause.message

/-- The arguments of the inner macro call are read with the whole rest of the source ahead, and
the type in the cast takes the `>` behind both calls for its own end. What stands behind the
value then decides which of the two calls keeps its arguments. -/
theorem compound_assignment_cause_differs :
    ∃ header e file header' e' file',
      IsFunction addResult header (tokensBetween addResult 5 2) e file ∧
      IsFunction addResultGroup header' (tokensBetween addResultGroup 5 2) e' file' ∧
      header.bare = header'.bare ∧
      Short .add "x" (tokensBetween addResult 7 3) (tokensBetween addResult 5 2) ∧
      Long .add "x" (tokensBetween addResultGroup 10 4) (tokensBetween addResultGroup 5 2) ∧
      (tokensBetween addResult 7 3).map Token.word =
        (tokensBetween addResultGroup 10 4).map Token.word ∧
      causeOf? file = some "unsupported construct: macro m!" ∧
      causeOf? file' = some "unsupported construct: println! arguments" := by
  obtain ⟨header, e, file, hshort, hheader, hcause⟩ := exists_isFunction addResult
    (tokenAt addResult 23) (tokenAt addResult 24)
    (fun file => causeOf? file = some "unsupported construct: macro m!")
    (by decide +kernel) (by decide +kernel) (by decide +kernel)
  obtain ⟨header', e', file', hlong, hheader', hcause'⟩ := exists_isFunction addResultGroup
    (tokenAt addResultGroup 27) (tokenAt addResultGroup 28)
    (fun file => causeOf? file = some "unsupported construct: println! arguments")
    (by decide +kernel) (by decide +kernel) (by decide +kernel)
  refine ⟨header, e, file, header', e', file', hshort, hlong, hheader.trans hheader'.symm, ?_, ?_,
    by decide +kernel, of_decide_eq_true hcause, of_decide_eq_true hcause'⟩
  · exact ⟨tokenAt addResult 5, tokenAt addResult 6, tokenAt addResult 22, by decide +kernel⟩
  · exact ⟨tokenAt addResultGroup 5, tokenAt addResultGroup 6, tokenAt addResultGroup 7,
      tokenAt addResultGroup 8, tokenAt addResultGroup 9, tokenAt addResultGroup 25,
      tokenAt addResultGroup 26, by decide +kernel⟩

end RustLua.Lowering
