import RustLua.Diagnostic
import RustLua.Parser.SyntaxError

/-!
The parser's state and its basic steps. Parsing never fails: errors go into the
bag and reading goes on. `none` means only that a loop went on without taking a
token, or that the bound on the depth ran out; the bound comes from the number of
tokens and is chosen so that this does not happen.
-/

namespace RustLua

namespace Parser

structure State where
  /-- The tokens that are not taken yet. -/
  ahead : List Token
  /-- The kind of the token taken last. -/
  previous : Token.Kind := .eof
  bag : Bag := {}
  /-- In a condition, a brace behind a name opens a block and no struct literal. -/
  noStruct : Bool := false

/-- What is seen behind the last token. -/
def beyond : Token := ⟨.eof, [], [], ⟨0, 0⟩⟩

def State.current (s : State) : Token := s.ahead.headD beyond

def State.peek (s : State) (n : Nat) : Token := s.ahead.getD n beyond

def State.report (s : State) (pos : Pos) (e : SyntaxError) : State :=
  { s with bag := s.bag.add (.atPos .error pos e.message) }

end Parser

abbrev Parser := StateT Parser.State Option

namespace Parser

variable {α β σ : Type}

def current : Parser Token := do return (← get).current

def currentKind : Parser Token.Kind := do return (← get).current.kind

def peekKind (n : Nat) : Parser Token.Kind := do return ((← get).peek n).kind

/-- Report at a position. -/
def reportAt (pos : Pos) (e : SyntaxError) : Parser Unit := modify (·.report pos e)

/-- Report at the current token. -/
def report (e : SyntaxError) : Parser Unit := modify fun s => s.report s.current.pos e

/-- Take the current token; behind the last one there is nothing to take. -/
def advance : Parser Token := do
  let s ← get
  match s.ahead with
  | [] => return beyond
  | t :: rest => do
    set { s with ahead := rest, previous := t.kind }
    return t

/-- Take `n` tokens. -/
def skip : Nat → Parser Unit
  | 0 => pure ()
  | n + 1 => do
    let _ ← advance
    skip n

def check (k : Token.Kind) : Parser Bool := do return (← currentKind) = k

/-- Is the current token this plain word? -/
def checkWord (word : Bytes) : Parser Bool := do
  let t ← current
  return t.kind = .ident ∧ t.literal = word

/-- Take the current token if it is of this kind. -/
def accept (k : Token.Kind) : Parser Bool := do
  if ← check k then
    let _ ← advance
    return true
  else
    return false

/-- Take a token of this kind, or report and leave the current one. -/
def expect (k : Token.Kind) : Parser Token := do
  let t ← current
  if t.kind = k then advance
  else
    report (.expected k.name t)
    return t

/-- Go back to an earlier state: its tokens lie ahead again, and what was reported since
then is dropped. -/
def rewind (start : State) : Parser Unit := modify fun s =>
  { s with
    ahead := start.ahead
    previous := start.previous
    bag := s.bag.truncate start.bag.count }

/-- Run with the struct literal rule set, and put the old rule back. -/
def withNoStruct (flag : Bool) (p : Parser α) : Parser α := do
  let saved := (← get).noStruct
  modify fun s => { s with noStruct := flag }
  let a ← p
  modify fun s => { s with noStruct := saved }
  return a

/-! ## Loops -/

/-- Does a loop go on, or is it done? -/
inductive Step (σ β : Type) where
  | more (s : σ)
  | done (b : β)

/-- At most `n` rounds of a loop, each of which takes a token or is the last. -/
def iterate (body : σ → Parser (Step σ β)) : Nat → σ → Parser β
  | 0, _ => failure
  | n + 1, s => do
    let before := (← get).ahead.length
    match ← body s with
    | .more s => if (← get).ahead.length < before then iterate body n s else failure
    | .done b => pure b

/-- A loop, which has a round for each token and one to end with. -/
def loop (body : σ → Parser (Step σ β)) (s : σ) : Parser β := do
  iterate body ((← get).ahead.length + 1) s

/-- Elements up to a closing token or the end, each but the last followed by a comma. -/
def commaList (closer : Token.Kind) (element : Parser α) : Parser (List α) :=
  loop (fun acc => do
    if (← check closer) || (← check .eof) then return .done acc
    else
      let a ← element
      if ← accept .comma then return .more (acc ++ [a]) else return .done (acc ++ [a])) []

/-- Parts up to a closing token or the end. A part may be dropped, and a part
that takes no token costs the current one. -/
def partsUntil (closer : Token.Kind) (part : Parser (Option α)) : Parser (List α) :=
  loop (fun acc => do
    if (← check closer) || (← check .eof) then return .done acc
    else
      let before := (← get).ahead.length
      let a ← part
      if (← get).ahead.length = before then
        let _ ← advance
      return .more (acc ++ a.toList)) []

end Parser
end RustLua
