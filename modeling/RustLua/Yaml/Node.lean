import RustLua.Yaml.Meaning

/-! Trees of scalars, sequences and mappings with scalar keys. -/

namespace RustLua.Yaml

/-- The type of a scalar. -/
inductive Tag where
  | null | bool | int | float | str
deriving DecidableEq, Repr

/-- A scalar; a quoted one is to stand in double quotes. -/
structure Scalar where
  tag : Tag
  quoted : Bool
  text : Bytes
deriving DecidableEq, Repr

mutual

/-- Nodes. A flow sequence stands on one line, in brackets. -/
inductive Node where
  | scalar (s : Scalar)
  | seq (isFlow : Bool) (items : List Node)
  | map (entries : List Entry)

inductive Entry where
  | mk (key : Bytes) (value : Node)

end

namespace Node

def plain (tag : Tag) (text : Bytes) : Node := .scalar ⟨tag, false, text⟩

def null : Node := plain .null "~"

/-- Does a string have to be quoted because of a newline, a tab or a quote, or because
it is empty? -/
def needsQuotes (text : Bytes) : Bool :=
  text.isEmpty || text.any fun b =>
    b == Ascii.newline || b == Ascii.tab || b == Ascii.quote || b == Ascii.apostrophe

def string (text : Bytes) : Node := .scalar ⟨.str, needsQuotes text, text⟩

/-- A mapping with one key. -/
def single (key : String) (value : Node) : Node := .map [.mk key value]

mutual

/-- The scalars of a tree from left to right, keys included. -/
def scalars : Node → List Bytes
  | .scalar s => [s.text]
  | .seq _ items => itemScalars items
  | .map entries => entryScalars entries

def itemScalars : List Node → List Bytes
  | [] => []
  | item :: items => item.scalars ++ itemScalars items

def entryScalars : List Entry → List Bytes
  | [] => []
  | .mk key value :: entries => key :: value.scalars ++ entryScalars entries

end

end Node
end RustLua.Yaml
