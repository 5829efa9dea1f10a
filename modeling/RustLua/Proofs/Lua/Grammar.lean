import RustLua.Lua.Piece

/-! # The grammar of Lua chunks

The productions of Lua 5.4 that can be written with pieces. Those that need another
token (`repeat`, `nil`, an index in brackets, a method, an attribute, varargs and so
on) are left out, so whatever is derived here is derived in the full grammar. A minus
sign is a mark in front of its operand and an operator between two. -/
namespace RustLua.Lua

open Piece (keyword mark operator name)

/-- The nonterminals. -/
inductive Category where
  | chunk | block | stat | elseifs | elsePart | retstat | funcname | varlist | var | namelist
  | explist | exp | prefixexp | functioncall | args | functiondef | funcbody | tableconstructor
  | fieldlist | field | fieldsep
deriving DecidableEq, Repr

/-- `Derives c p`: the pieces `p` can be derived from the nonterminal `c`. -/
inductive Derives : Category → Pieces → Prop
  | chunk {b : Pieces} (hb : Derives .block b) : Derives .chunk b
  -- block ::= {stat} [retstat]
  | emptyBlock : Derives .block []
  | stat {a b : Pieces} (hs : Derives .stat a) (hb : Derives .block b) : Derives .block (a ++ b)
  | retstat {r : Pieces} (hr : Derives .retstat r) : Derives .block r
  -- stat
  | semicolon : Derives .stat [.mark .semicolon]
  | assign {v e : Pieces} (hv : Derives .varlist v) (he : Derives .explist e) :
      Derives .stat (v ++ [mark .assign] ++ e)
  | callStat {c : Pieces} (hc : Derives .functioncall c) : Derives .stat c
  | label {n : Bytes} : Derives .stat [.mark .colons, .name n, .mark .colons]
  | breakStat : Derives .stat [.keyword .breakKw]
  | gotoStat {n : Bytes} : Derives .stat [.keyword .gotoKw, .name n]
  | doBlock {b : Pieces} (hb : Derives .block b) :
      Derives .stat ([keyword .doKw] ++ b ++ [keyword .endKw])
  | whileLoop {e b : Pieces} (he : Derives .exp e) (hb : Derives .block b) :
      Derives .stat ([keyword .whileKw] ++ e ++ [keyword .doKw] ++ b ++ [keyword .endKw])
  | ifThen {e b m l : Pieces} (he : Derives .exp e) (hb : Derives .block b)
      (hm : Derives .elseifs m) (hl : Derives .elsePart l) :
      Derives .stat ([keyword .ifKw] ++ e ++ [keyword .thenKw] ++ b ++ m ++ l ++
        [keyword .endKw])
  | noElseifs : Derives .elseifs []
  | elseif {e b m : Pieces} (he : Derives .exp e) (hb : Derives .block b)
      (hm : Derives .elseifs m) :
      Derives .elseifs ([keyword .elseifKw] ++ e ++ [keyword .thenKw] ++ b ++ m)
  | noElse : Derives .elsePart []
  | elsePart {b : Pieces} (hb : Derives .block b) : Derives .elsePart ([keyword .elseKw] ++ b)
  | numericFor {n : Bytes} {first last b : Pieces} (hf : Derives .exp first)
      (hl : Derives .exp last) (hb : Derives .block b) :
      Derives .stat ([keyword .forKw, .name n, .mark .assign] ++ first ++ [mark .comma] ++ last ++
        [keyword .doKw] ++ b ++ [keyword .endKw])
  | numericForStep {n : Bytes} {first last step b : Pieces} (hf : Derives .exp first)
      (hl : Derives .exp last) (hs : Derives .exp step) (hb : Derives .block b) :
      Derives .stat ([keyword .forKw, .name n, .mark .assign] ++ first ++ [mark .comma] ++ last ++
        [mark .comma] ++ step ++ [keyword .doKw] ++ b ++ [keyword .endKw])
  | genericFor {n e b : Pieces} (hn : Derives .namelist n) (he : Derives .explist e)
      (hb : Derives .block b) :
      Derives .stat ([keyword .forKw] ++ n ++ [keyword .inKw] ++ e ++ [keyword .doKw] ++ b ++
        [keyword .endKw])
  | function {n b : Pieces} (hn : Derives .funcname n) (hb : Derives .funcbody b) :
      Derives .stat ([keyword .functionKw] ++ n ++ b)
  | localFunction {n : Bytes} {b : Pieces} (hb : Derives .funcbody b) :
      Derives .stat ([keyword .localKw, .keyword .functionKw, .name n] ++ b)
  | localNames {n : Pieces} (hn : Derives .namelist n) : Derives .stat ([keyword .localKw] ++ n)
  | localAssign {n e : Pieces} (hn : Derives .namelist n) (he : Derives .explist e) :
      Derives .stat ([keyword .localKw] ++ n ++ [mark .assign] ++ e)
  -- retstat ::= return [explist] [';']
  | bareReturn : Derives .retstat [.keyword .returnKw]
  | returnExps {e : Pieces} (he : Derives .explist e) :
      Derives .retstat ([keyword .returnKw] ++ e)
  | bareReturnSemicolon : Derives .retstat [.keyword .returnKw, .mark .semicolon]
  | returnExpsSemicolon {e : Pieces} (he : Derives .explist e) :
      Derives .retstat ([keyword .returnKw] ++ e ++ [mark .semicolon])
  -- names and variables
  | funcname {n : Bytes} : Derives .funcname [.name n]
  | funcnameField {f : Pieces} {n : Bytes} (hf : Derives .funcname f) :
      Derives .funcname (f ++ [mark .dot, .name n])
  | var {v : Pieces} (hv : Derives .var v) : Derives .varlist v
  | varComma {v w : Pieces} (hv : Derives .var v) (hw : Derives .varlist w) :
      Derives .varlist (v ++ [mark .comma] ++ w)
  | name {n : Bytes} : Derives .var [.name n]
  | dot {p : Pieces} {n : Bytes} (hp : Derives .prefixexp p) :
      Derives .var (p ++ [mark .dot, .name n])
  | oneName {n : Bytes} : Derives .namelist [.name n]
  | nameComma {n : Bytes} {l : Pieces} (hl : Derives .namelist l) :
      Derives .namelist ([name n, .mark .comma] ++ l)
  -- expressions
  | exp {e : Pieces} (he : Derives .exp e) : Derives .explist e
  | expComma {e l : Pieces} (he : Derives .exp e) (hl : Derives .explist l) :
      Derives .explist (e ++ [mark .comma] ++ l)
  | falseExp : Derives .exp [.keyword .falseKw]
  | trueExp : Derives .exp [.keyword .trueKw]
  | numeral {t : Bytes} : Derives .exp [.numeral t]
  | literal {t : Bytes} : Derives .exp [.literal t]
  | functiondefExp {f : Pieces} (hf : Derives .functiondef f) : Derives .exp f
  | prefixExp {p : Pieces} (hp : Derives .prefixexp p) : Derives .exp p
  | tableExp {t : Pieces} (ht : Derives .tableconstructor t) : Derives .exp t
  | binop {l r : Pieces} {o : Operator} (hl : Derives .exp l) (hr : Derives .exp r) :
      Derives .exp (l ++ [operator o] ++ r)
  | minus {e : Pieces} (he : Derives .exp e) : Derives .exp ([mark .minus] ++ e)
  | varPrefix {v : Pieces} (hv : Derives .var v) : Derives .prefixexp v
  | callPrefix {c : Pieces} (hc : Derives .functioncall c) : Derives .prefixexp c
  | paren {e : Pieces} (he : Derives .exp e) :
      Derives .prefixexp ([mark .parenOpen] ++ e ++ [mark .parenClose])
  | call {p a : Pieces} (hp : Derives .prefixexp p) (ha : Derives .args a) :
      Derives .functioncall (p ++ a)
  | noArgs : Derives .args [.mark .parenOpen, .mark .parenClose]
  | args {e : Pieces} (he : Derives .explist e) :
      Derives .args ([mark .parenOpen] ++ e ++ [mark .parenClose])
  | tableArg {t : Pieces} (ht : Derives .tableconstructor t) : Derives .args t
  | literalArg {t : Bytes} : Derives .args [.literal t]
  | functiondef {b : Pieces} (hb : Derives .funcbody b) :
      Derives .functiondef ([keyword .functionKw] ++ b)
  | bodyNoParams {b : Pieces} (hb : Derives .block b) :
      Derives .funcbody ([mark .parenOpen, .mark .parenClose] ++ b ++ [keyword .endKw])
  | body {n b : Pieces} (hn : Derives .namelist n) (hb : Derives .block b) :
      Derives .funcbody ([mark .parenOpen] ++ n ++ [mark .parenClose] ++ b ++ [keyword .endKw])
  -- tables
  | emptyTable : Derives .tableconstructor [.mark .braceOpen, .mark .braceClose]
  | table {l : Pieces} (hl : Derives .fieldlist l) :
      Derives .tableconstructor ([mark .braceOpen] ++ l ++ [mark .braceClose])
  | oneField {f : Pieces} (hf : Derives .field f) : Derives .fieldlist f
  | lastSeparator {f s : Pieces} (hf : Derives .field f) (hs : Derives .fieldsep s) :
      Derives .fieldlist (f ++ s)
  | fields {f s l : Pieces} (hf : Derives .field f) (hs : Derives .fieldsep s)
      (hl : Derives .fieldlist l) : Derives .fieldlist (f ++ s ++ l)
  | namedField {n : Bytes} {e : Pieces} (he : Derives .exp e) :
      Derives .field ([name n, .mark .assign] ++ e)
  | expField {e : Pieces} (he : Derives .exp e) : Derives .field e
  | commaSep : Derives .fieldsep [.mark .comma]
  | semicolonSep : Derives .fieldsep [.mark .semicolon]

end RustLua.Lua
