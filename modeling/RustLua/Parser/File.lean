import RustLua.Parser.Item
import RustLua.Token.Lexer

/-!
Files. The grammar is tied with a depth that grows with the number of tokens:
between two turns of the grammar on itself a token is taken, apart from a fixed
number of turns that only choose a production.
-/

namespace RustLua

open RustLua.Tree

namespace Parser

/-- The grammar, good for `depth` turns. -/
def grammar : Nat → Grammar
  | 0 => .exhausted
  | depth + 1 =>
    let g := grammar depth
    { expression := expression g
      precedence := precedence g
      unary := unary g
      primary := primary g
      ifElse := ifElse g
      block := block g
      item := item g
      pattern := pattern g
      skipType := skipType g }

/-- A depth that no list of so many tokens uses up. -/
def depthFor (tokens : List Token) : Nat := 4 * (tokens.length + 1)

/-- One report for each illegal token. -/
def illegalTokens (tokens : List Token) : Bag :=
  ⟨(tokens.filter (·.kind = .illegal)).map fun t =>
    .atPos .error t.pos (SyntaxError.illegalToken t.literal).message⟩

def start (tokens : List Token) : State := { ahead := tokens, bag := illegalTokens tokens }

/-- The items of a file, within the depth for its tokens. -/
def parseTokens? (tokens : List Token) : Option (List Item × State) :=
  items (grammar (depthFor tokens)) .eof (start tokens)

/-- The tree of a token list, recovered from whatever errors there are, and the reports. -/
def parseTokens (tokens : List Token) : File × Bag :=
  match parseTokens? tokens with
  | some (items, s) => (⟨items⟩, s.bag)
  | none => (⟨[]⟩, illegalTokens tokens)

/-- The tree of a source and the reports. -/
def parse (source : Bytes) : Except Token.Fault (File × Bag) :=
  parseTokens <$> Token.tokenize source

/-- Why a source has no tree. -/
inductive Failure where
  | lexing (fault : Token.Fault)
  | errors (list : List Diagnostic)

/-- One line for a list of errors: the first one, and how many follow. -/
def errorsMessage : List Diagnostic → Bytes
  | [] => "parse error"
  | d :: more =>
    "parse error: " ++ d.text ++
      Bytes.onlyIf (!more.isEmpty) (" (and " ++ Bytes.decimal more.length ++ " more)")

/-- A cut-off literal has no message of its own. -/
def Failure.message : Failure → Bytes
  | .lexing .cutByteLiteral => "cut-off byte literal"
  | .errors list => errorsMessage list

/-- The tree of a source without errors. -/
def parseFile (source : Bytes) : Except Failure File :=
  match parse source with
  | .error fault => .error (.lexing fault)
  | .ok (file, bag) => if bag.hasErrors then .error (.errors bag.errors) else .ok file

end Parser
end RustLua
