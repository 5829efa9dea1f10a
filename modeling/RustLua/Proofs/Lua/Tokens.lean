import RustLua.Lua.Render

/-! # Pieces without the blanks

Blanks separate tokens and mean nothing else: what Lua reads are the other pieces. -/
namespace RustLua.Lua

/-- The pieces that Lua reads. -/
def Pieces.tokens (pieces : Pieces) : Pieces := pieces.filter (· ≠ .blank)

variable {p q : Pieces}

@[simp] theorem tokens_nil : Pieces.tokens [] = [] := rfl

@[simp] theorem tokens_blank : Pieces.tokens (.blank :: p) = p.tokens := rfl

@[simp] theorem tokens_cons {a : Piece} (h : a ≠ .blank) :
    Pieces.tokens (a :: p) = a :: p.tokens :=
  List.filter_cons_of_pos (by simpa using h)

@[simp] theorem tokens_append : Pieces.tokens (p ++ q) = p.tokens ++ q.tokens :=
  List.filter_append p q

theorem tokens_commaSeparated (list : List Pieces) :
    (commaSeparated list).tokens = commaSeparated (list.map Pieces.tokens) := by
  induction list with
  | nil => rfl
  | cons first rest ih =>
    cases rest with
    | nil => simp [commaSeparated]
    | cons second rest =>
      simp only [commaSeparated, List.map_cons, List.intercalate_cons_cons] at ih ⊢
      simp [ih]

@[simp] theorem tokens_parenthesized : (parenthesized p).tokens = parenthesized p.tokens := by
  simp [parenthesized]

@[simp] theorem tokens_member (table field : String) :
    (member table field).tokens = member table field := rfl

@[simp] theorem tokens_integerPieces (n : Int64) :
    (integerPieces n).tokens = integerPieces n := by
  unfold integerPieces
  split
  · rfl
  · split <;> rfl

@[simp] theorem tokens_decimalPieces (d : Double) :
    (decimalPieces d).tokens = decimalPieces d := by
  unfold decimalPieces
  split
  · rfl
  · extract_lets sign size
    have hsign : sign.tokens = sign := by
      simp only [sign]
      split <;> rfl
    split <;> simp [hsign]

@[simp] theorem tokens_functionPieces (params : List Bytes) :
    (functionPieces params p).tokens = functionPieces params p.tokens := by
  have hnames : (params.map fun n => [Piece.name n]).map Pieces.tokens =
      params.map fun n => [.name n] := by
    simp
  simp [functionPieces, tokens_commaSeparated, hnames]

end RustLua.Lua
