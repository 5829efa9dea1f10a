import RustLua.Yaml.Meaning

/-! Documents that were read: trees of values that know their lines. -/

namespace RustLua.Yaml

mutual

inductive Value where
  | scalar (text : Bytes) (quoted : Bool) (line : Nat)
  | seq (items : List Value) (line : Nat)
  | map (entries : List Pair) (line : Nat)

inductive Pair where
  | mk (key value : Value)

end

instance : Inhabited Value := ⟨.scalar [] false 0⟩

def Value.line : Value → Nat
  | .scalar _ _ line | .seq _ line | .map _ line => line

/-- A value that is left out. -/
def Value.absent (line : Nat) : Value := .scalar [] false line

/-- The meaning of a scalar; in quotes it is text. -/
def scalarMeaning (text : Bytes) (quoted : Bool) : Meaning :=
  if quoted then .text else Meaning.ofPlain text

def Meaning.tag : Meaning → String
  | .null => "!!null"
  | .bool _ => "!!bool"
  | .integer _ => "!!int"
  | .float _ => "!!float"
  | .timestamp => "!!timestamp"
  | .text => "!!str"

end RustLua.Yaml
