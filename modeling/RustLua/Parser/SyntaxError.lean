import RustLua.Token.Basic

/-! What the parser reports, and the wording of each report. -/

namespace RustLua.Parser

inductive SyntaxError where
  | illegalToken (text : Bytes)
  | expected (what : Bytes) (found : Token)
  | unexpected (found : Token)
  | openGenerics
  | openDeclaration (keyword : Bytes)
  | externBody
  | literalPattern

/-- A token as a message shows it. -/
def describe (t : Token) : Bytes :=
  match t.kind with
  | .ident => "identifier " ++ t.literal
  | .eof => "end of file"
  | .intLit | .floatLit | .stringLit | .charLit | .byteStringLit => "literal " ++ t.raw
  | k => k.name

def SyntaxError.message : SyntaxError → Bytes
  | .illegalToken text => "illegal token: " ++ text
  | .expected what found => "expected " ++ what ++ ", got " ++ describe found
  | .unexpected found => "unexpected " ++ describe found ++ " in expression"
  | .openGenerics => "unterminated generic argument list"
  | .openDeclaration keyword => "unterminated " ++ keyword ++ " declaration"
  | .externBody => "functions in extern blocks cannot have a body"
  | .literalPattern => "expected literal pattern"

end RustLua.Parser
