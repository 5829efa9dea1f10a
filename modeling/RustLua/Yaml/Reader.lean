import RustLua.Bytes.Utf8
import RustLua.Yaml.Document

/-!
Reading small documents: block mappings and sequences, flow collections, plain
and quoted scalars, comments. Blocks are told apart by their columns. Anchors,
tags and literal blocks are not read.
-/

namespace RustLua.Yaml.Reader

/-! ## Cursors -/

structure Cursor where
  rest : Bytes
  line : Nat := 1
  column : Nat := 0

/-- Why a text is no document. -/
inductive Problem where
  | valueNotAllowed | keyExpected | colonExpected | sequenceEnd | mappingEnd | textEnd
  | itemNotAllowed | cannotStart | unknownEscape
deriving DecidableEq, Repr

def Problem.text : Problem → String
  | .valueNotAllowed => "mapping values are not allowed in this context"
  | .keyExpected => "did not find expected key"
  | .colonExpected => "could not find expected ':'"
  | .sequenceEnd => "did not find expected ',' or ']'"
  | .mappingEnd => "did not find expected ',' or '\x7d'"
  | .textEnd => "found unexpected end of stream"
  | .itemNotAllowed => "block sequence entries are not allowed in this context"
  | .cannotStart => "found character that cannot start any token"
  | .unknownEscape => "found unknown escape character"

structure ReadError where
  problem : Problem
  line : Nat
deriving DecidableEq, Repr

/-- The first line is not named. -/
def ReadError.message (e : ReadError) : Bytes :=
  "yaml: " ++ Bytes.onlyIf (1 < e.line) ("line " ++ Bytes.decimal e.line ++ ": ") ++ e.problem.text

namespace Cursor

def head (c : Cursor) : UInt8 := c.rest.headD 0

def atEnd (c : Cursor) : Bool := c.rest.isEmpty

/-- Behind so many bytes of the same line. -/
def skip (c : Cursor) (n : Nat) : Cursor := ⟨c.rest.drop n, c.line, c.column + n⟩

/-- Behind blanks, line ends and comments. -/
def toContentFrom (inComment : Bool) (line column : Nat) : Bytes → Cursor
  | [] => ⟨[], line, column⟩
  | b :: rest =>
    if b = Ascii.newline then toContentFrom false (line + 1) 0 rest
    else if inComment || b == Ascii.blank || b == Ascii.tab || b == Ascii.carriageReturn then
      toContentFrom inComment line (column + 1) rest
    else if b = Ascii.hash then toContentFrom true line (column + 1) rest
    else ⟨b :: rest, line, column⟩

def toContent (c : Cursor) : Cursor := toContentFrom false c.line c.column c.rest

/-- Behind the blanks of a line. -/
def pastBlanks (c : Cursor) : Cursor :=
  c.skip (c.rest.takeWhile fun b => b == Ascii.blank || b == Ascii.tab).length

end Cursor

def isSpaceByte (b : UInt8) : Bool := Ascii.isLayout b

/-- Does a text start with a byte that white space or the end follows? -/
def startsToken (b : UInt8) (text : Bytes) : Bool :=
  text.headD 0 == b && !text.isEmpty && ((text.drop 1).isEmpty || isSpaceByte (text.getD 1 0))

/-- A mark that starts or ends a document, at the beginning of a line. -/
def isMark (mark : Bytes) (c : Cursor) : Bool :=
  c.column = 0 && mark.isPrefixOf c.rest &&
    ((c.rest.drop 3).isEmpty || isSpaceByte (c.rest.getD 3 0))

/-- Is the document over? -/
def isOver (c : Cursor) : Bool := c.atEnd || isMark "---" c || isMark "..." c

/-! ## Scalars -/

def isFlowMark (b : UInt8) : Bool :=
  b == Ascii.comma || b == 91 || b == 93 || b == Ascii.braceOpen || b == Ascii.braceClose

/-- The length of a plain scalar on one line. -/
def plainLength (inFlow afterBlank : Bool) : Bytes → Nat
  | [] => 0
  | b :: rest =>
    if b = Ascii.newline ∨ b = Ascii.carriageReturn then 0
    else if b = Ascii.hash ∧ afterBlank then 0
    else if b = Ascii.colon ∧ (rest.isEmpty || isSpaceByte (rest.headD 0) ||
        (inFlow && isFlowMark (rest.headD 0))) then 0
    else if inFlow && isFlowMark b then 0
    else plainLength inFlow (b == Ascii.blank || b == Ascii.tab) rest + 1

def trimRight (text : Bytes) : Bytes :=
  (text.reverse.dropWhile fun b => b == Ascii.blank || b == Ascii.tab).reverse

/-- Can a plain scalar start here? -/
def startsPlain (inFlow : Bool) (c : Cursor) : Bool :=
  let b := c.head
  let next := (c.rest.drop 1).headD Ascii.newline
  if b == Ascii.minus || b == Bytes.ofAscii '?' || b == Ascii.colon then
    !isSpaceByte next && !(inFlow && isFlowMark next)
  else !(Bytes.ofString ",[]\x7b\x7d#&*!|>'\"%@`").elem b

/-- A plain scalar up to the end of its line, without blanks at its end. -/
def plainLine (inFlow : Bool) (c : Cursor) : Bytes × Cursor :=
  let n := plainLength inFlow false c.rest
  (trimRight (c.rest.take n), c.skip n)

/-- Lines that go on with a plain scalar: those further to the right than `parent`, if no
comment comes before them. Line ends become blanks, empty lines line ends. -/
def continued (parent : Int) : Nat → Bytes × Cursor → Bytes × Cursor
  | 0, read => read
  | fuel + 1, (text, c) =>
    let next := Cursor.toContent c
    let between := c.rest.take (c.rest.length - next.rest.length)
    if isOver next || next.line = c.line || (next.column : Int) ≤ parent ||
        between.elem Ascii.hash then (text, c)
    else
      let (line, behind) := plainLine false next
      let gap : Bytes := if next.line = c.line + 1 then " "
        else List.replicate (next.line - c.line - 1) Ascii.newline
      if line.isEmpty then (text, c) else continued parent fuel (text ++ gap ++ line, behind)

/-- A scalar in single quotes, behind the opening one. -/
def singleQuoted (line column : Nat) : Bytes → Except ReadError (Bytes × Cursor)
  | [] => .error ⟨.textEnd, line⟩
  | b :: rest =>
    if b = Ascii.apostrophe then
      match rest with
      | c :: rest' =>
        if c = Ascii.apostrophe then
          (singleQuoted line (column + 2) rest').map fun (text, cur) => (b :: text, cur)
        else .ok ([], ⟨rest, line, column + 1⟩)
      | [] => .ok ([], ⟨[], line, column + 1⟩)
    else if b = Ascii.newline then .error ⟨.textEnd, line⟩
    else (singleQuoted line (column + 1) rest).map fun (text, cur) => (b :: text, cur)

/-- Escapes of one letter. -/
def escapes : List (Char × Nat) :=
  [('0', 0), ('a', 7), ('b', 8), ('t', 9), ('\t', 9), ('n', 10), ('v', 11), ('f', 12), ('r', 13),
   ('e', 27), (' ', 32), ('"', 34), ('/', 47), ('\\', 92), ('N', 0x85), ('_', 0xA0), ('L', 0x2028),
   ('P', 0x2029)]

/-- Escapes by code, and the number of their digits. -/
def codeWidth? (b : UInt8) : Option Nat :=
  if b = Bytes.ofAscii 'x' then some 2
  else if b = Bytes.ofAscii 'u' then some 4
  else if b = Bytes.ofAscii 'U' then some 8
  else none

/-- What an escape stands for, and its length behind the backslash. -/
def escape? : Bytes → Option (Bytes × Nat)
  | [] => none
  | b :: rest =>
    match escapes.find? fun (c, _) => Bytes.ofAscii c = b with
    | some (_, n) => some (Utf8.encode (Char.ofNat n), 1)
    | none => do
      let width ← codeWidth? b
      guard (width ≤ rest.length)
      let n ← Bytes.digitsValue? 16 (rest.take width)
      return (Utf8.encode (Char.ofNat n), width + 1)

/-- A scalar in double quotes, behind the opening one; `skip` bytes are done with. -/
def doubleQuoted (line : Nat) : Nat → Nat → Bytes → Except ReadError (Bytes × Cursor)
  | _, _, [] => .error ⟨.textEnd, line⟩
  | column, skip + 1, _ :: rest => doubleQuoted line (column + 1) skip rest
  | column, 0, b :: rest =>
    if b = Ascii.quote then .ok ([], ⟨rest, line, column + 1⟩)
    else if b = Ascii.newline then .error ⟨.textEnd, line⟩
    else if b = Ascii.backslash then
      match escape? rest with
      | some (meant, n) =>
        (doubleQuoted line (column + 1) n rest).map fun (text, cur) => (meant ++ text, cur)
      | none => .error ⟨.unknownEscape, line⟩
    else (doubleQuoted line (column + 1) 0 rest).map fun (text, cur) => (b :: text, cur)

/-- A scalar on one line. -/
def scalar (inFlow : Bool) (c : Cursor) : Except ReadError (Value × Cursor) := do
  if c.head = Ascii.apostrophe then
    let (text, behind) ← singleQuoted c.line (c.column + 1) (c.rest.drop 1)
    return (.scalar text true c.line, behind)
  else if c.head = Ascii.quote then
    let (text, behind) ← doubleQuoted c.line (c.column + 1) 0 (c.rest.drop 1)
    return (.scalar text true c.line, behind)
  else if startsPlain inFlow c then
    let (text, behind) := plainLine inFlow c
    return (.scalar text false c.line, behind)
  else throw ⟨.cannotStart, c.line⟩

/-! ## Flow collections -/

/-- How deep a flow collection may go. -/
abbrev Depth := Nat

mutual

/-- A flow node at a cursor. -/
def flow : Depth → Cursor → Except ReadError (Value × Cursor)
  | 0, c => .error ⟨.textEnd, c.line⟩
  | depth + 1, c =>
    if c.head = 91 then flowItems depth c.line [] (c.skip 1)
    else if c.head = Ascii.braceOpen then flowPairs depth c.line [] (c.skip 1)
    else scalar true c

/-- The items of a flow sequence that started on `line`. -/
def flowItems : Depth → Nat → List Value → Cursor → Except ReadError (Value × Cursor)
  | 0, _, _, c => .error ⟨.textEnd, c.line⟩
  | depth + 1, line, items, c => do
    let c := c.toContent
    if c.head = 93 then return (.seq items.reverse line, c.skip 1)
    if c.atEnd then throw ⟨.sequenceEnd, c.line⟩
    let (item, c) ← flowItem depth c
    let c := c.toContent
    if c.head = Ascii.comma then flowItems depth line (item :: items) (c.skip 1)
    else if c.head = 93 then return (.seq (item :: items).reverse line, c.skip 1)
    else throw ⟨.sequenceEnd, c.line⟩

/-- An item of a flow sequence: a node, or a pair, which is a mapping of its own. -/
def flowItem : Depth → Cursor → Except ReadError (Value × Cursor)
  | 0, c => .error ⟨.textEnd, c.line⟩
  | depth + 1, c => do
    let (key, behind) ← flow depth c
    let k := behind.toContent
    if k.head = Ascii.colon then
      let (value, behind) ← flowValue depth k
      return (.map [.mk key value] c.line, behind)
    else return (key, behind)

/-- The pairs of a flow mapping that started on `line`. -/
def flowPairs : Depth → Nat → List Pair → Cursor → Except ReadError (Value × Cursor)
  | 0, _, _, c => .error ⟨.textEnd, c.line⟩
  | depth + 1, line, pairs, c => do
    let c := c.toContent
    if c.head = Ascii.braceClose then return (.map pairs.reverse line, c.skip 1)
    if c.atEnd then throw ⟨.mappingEnd, c.line⟩
    let (key, c) ← flow depth c
    let c := c.toContent
    let (value, c) ← flowValue depth c
    let c := c.toContent
    if c.head = Ascii.comma then flowPairs depth line (.mk key value :: pairs) (c.skip 1)
    else if c.head = Ascii.braceClose then
      return (.map (Pair.mk key value :: pairs).reverse line, c.skip 1)
    else throw ⟨.mappingEnd, c.line⟩

/-- The value of a pair, which may be left out. -/
def flowValue : Depth → Cursor → Except ReadError (Value × Cursor)
  | 0, c => .error ⟨.textEnd, c.line⟩
  | depth + 1, c =>
    if c.head = Ascii.colon then
      let v := (c.skip 1).toContent
      if v.head = Ascii.comma ∨ v.head = Ascii.braceClose ∨ v.head = 93 then
        .ok (.absent v.line, v)
      else flow depth v
    else .ok (.absent c.line, c)

end

/-! ## Blocks -/

/-- The node of one line: a scalar or a flow collection. -/
def lineNode (depth : Depth) (c : Cursor) : Except ReadError (Value × Cursor) :=
  if c.head = 91 ∨ c.head = Ascii.braceOpen then flow depth c else scalar false c

/-- Is this the colon between a key and its value? -/
def atColon (c : Cursor) : Bool := startsToken Ascii.colon c.pastBlanks.rest

/-- The rest of a plain scalar on further lines; everything else is complete. -/
def finishScalar (depth : Depth) (parent : Int) : Value × Cursor → Value × Cursor
  | (.scalar text false line, c) =>
    let (text, c) := continued parent depth (text, c)
    (.scalar text false line, c)
  | read => read

mutual

/-- A block node further to the right than `parent`; nothing there is an absent value. -/
def block : Depth → Int → Cursor → Except ReadError (Value × Cursor)
  | 0, _, c => .error ⟨.textEnd, c.line⟩
  | depth + 1, parent, c => do
    if isOver c || (c.column : Int) ≤ parent then return (.absent c.line, c)
    if startsToken Ascii.minus c.rest then blockItems depth c.column c.line [] c
    else
      let (first, behind) ← lineNode depth c
      if atColon behind && behind.line = c.line then
        let (value, rest) ← pairValue depth c.column (behind.pastBlanks.skip 1)
        blockPairs depth c.column c.line [.mk first value] rest
      else
        let (node, behind) := finishScalar depth parent (first, behind)
        if atColon behind then throw ⟨.valueNotAllowed, behind.line⟩
        return (node, behind)

/-- The value behind a colon: on the same line, or on lines further to the right. A
sequence may start at the column of its key. -/
def pairValue : Depth → Nat → Cursor → Except ReadError (Value × Cursor)
  | 0, _, c => .error ⟨.textEnd, c.line⟩
  | depth + 1, column, c => do
    let v := c.toContent
    if v.line = c.line && !v.atEnd then
      if startsToken Ascii.minus v.rest then throw ⟨.itemNotAllowed, v.line⟩
      let (node, behind) := finishScalar depth column (← lineNode depth v)
      if atColon behind then throw ⟨.valueNotAllowed, behind.line⟩
      return (node, behind)
    else if v.column = column && startsToken Ascii.minus v.rest && !isOver v then
      blockItems depth column v.line [] v
    else block depth column v

/-- Further pairs of a mapping at a column. -/
def blockPairs : Depth → Nat → Nat → List Pair → Cursor → Except ReadError (Value × Cursor)
  | 0, _, _, _, c => .error ⟨.textEnd, c.line⟩
  | depth + 1, column, line, pairs, c => do
    let k := c.toContent
    if isOver k || k.column < column then return (.map pairs.reverse line, k)
    if column < k.column || k.line = c.line then throw ⟨.keyExpected, k.line⟩
    let (key, behind) ← lineNode depth k
    if atColon behind then
      let (value, rest) ← pairValue depth column (behind.pastBlanks.skip 1)
      blockPairs depth column line (.mk key value :: pairs) rest
    else throw ⟨.colonExpected, (behind.toContent).line⟩

/-- Items of a sequence at a column. -/
def blockItems : Depth → Nat → Nat → List Value → Cursor → Except ReadError (Value × Cursor)
  | 0, _, _, _, c => .error ⟨.textEnd, c.line⟩
  | depth + 1, column, line, items, c => do
    let k := c.toContent
    if isOver k || k.column < column ||
        (k.column = column && !startsToken Ascii.minus k.rest) then
      return (.seq items.reverse line, k)
    if column < k.column then throw ⟨.keyExpected, k.line⟩
    let (item, rest) ← block depth column (k.skip 1).toContent
    blockItems depth column line (item :: items) rest

end

/-- The document of a text, if it holds any. -/
def document? (text : Bytes) : Except ReadError (Option Value) := do
  let c := Cursor.toContent ⟨text, 1, 0⟩
  if c.atEnd || isMark "..." c then return none
  let c := if isMark "---" c then (c.skip 3).toContent else c
  let depth := 2 * text.length + 4
  let (node, behind) ← block depth (-1) c
  let behind := behind.toContent
  if isOver behind then return some node else throw ⟨.keyExpected, behind.line⟩

end RustLua.Yaml.Reader
