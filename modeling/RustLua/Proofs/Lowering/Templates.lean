import RustLua.Lowering.Basic

/-! # Templates read back

Any texts can stand around the marks of a template, if every brace in them is written twice.
Reading goes from left to right by pairs, so a run of braces at the end of a fragment is used
up in front of the mark behind it, and one at the beginning starts behind the mark in front of
it. -/
namespace RustLua.Lowering

open RustLua.Tree

/-- A text as a template spells it. -/
def doubleBraces (text : Bytes) : Bytes :=
  text.flatMap fun b => if b = Ascii.braceOpen ∨ b = Ascii.braceClose then [b, b] else [b]

/-- The template that has these fragments around its marks. -/
def templateOf (fragments : List Bytes) : Bytes :=
  Bytes.join "\x7b\x7d" (fragments.map doubleBraces)

section
variable {b : UInt8}

theorem doubleBraces_cons (text : Bytes) :
    doubleBraces (b :: text) =
      (if b = Ascii.braceOpen ∨ b = Ascii.braceClose then [b, b] else [b]) ++ doubleBraces text :=
  List.flatMap_cons

theorem splitFormat_pair (h : b = Ascii.braceOpen ∨ b = Ascii.braceClose) (rest : Bytes) :
    splitFormat (b :: b :: rest) = prepend b (splitFormat rest) := by
  rcases h with rfl | rfl
  · rw [splitFormat, if_pos ⟨rfl, rfl⟩]
  · rw [splitFormat, if_neg (by decide), if_pos ⟨rfl, rfl⟩]

theorem splitFormat_plain (h : ¬ (b = Ascii.braceOpen ∨ b = Ascii.braceClose)) (rest : Bytes) :
    splitFormat (b :: rest) = prepend b (splitFormat rest) := by
  obtain ⟨hopen, hclose⟩ := not_or.mp h
  cases rest with
  | nil => rfl
  | cons c rest =>
    rw [splitFormat, if_neg fun hb => hopen hb.1, if_neg fun hb => hclose hb.1,
      if_neg fun hb => hopen hb.1]

end

/-- A fragment goes in front of the first one behind it, whatever follows. -/
theorem splitFormat_doubleBraces {rest first : Bytes} {more : List Bytes}
    (h : splitFormat rest = first :: more) (text : Bytes) :
    splitFormat (doubleBraces text ++ rest) = (text ++ first) :: more := by
  induction text with
  | nil => exact h
  | cons b text ih =>
    by_cases hb : b = Ascii.braceOpen ∨ b = Ascii.braceClose
    · rw [doubleBraces_cons, if_pos hb]
      exact (splitFormat_pair hb _).trans (congrArg (prepend b) ih)
    · rw [doubleBraces_cons, if_neg hb]
      exact (splitFormat_plain hb _).trans (congrArg (prepend b) ih)

theorem splitFormat_mark (rest : Bytes) :
    splitFormat (Bytes.ofString "\x7b\x7d" ++ rest) = [] :: splitFormat rest := by
  have hmark : Bytes.ofString "\x7b\x7d" = [Ascii.braceOpen, Ascii.braceClose] := by decide
  rw [hmark, List.cons_append, List.cons_append, List.nil_append, splitFormat,
    if_neg (by decide), if_neg (by decide), if_pos ⟨rfl, rfl⟩]

theorem splitFormat_templateOf (first : Bytes) (rest : List Bytes) :
    splitFormat (templateOf (first :: rest)) = first :: rest := by
  induction rest generalizing first with
  | nil =>
    have hone : splitFormat (doubleBraces first ++ []) = [first ++ []] :=
      splitFormat_doubleBraces rfl first
    simpa [templateOf, Bytes.join] using hone
  | cons second rest ih =>
    have hjoin : templateOf (first :: second :: rest) =
        doubleBraces first ++ (Bytes.ofString "\x7b\x7d" ++ templateOf (second :: rest)) := by
      simp [templateOf, Bytes.join, List.intercalate_cons_cons]
    have hmark : splitFormat (Bytes.ofString "\x7b\x7d" ++ templateOf (second :: rest)) =
        [] :: second :: rest := by
      rw [splitFormat_mark, ih]
    rw [hjoin, splitFormat_doubleBraces hmark, List.append_nil]

/-- Fragments are read back from their template. A format with this template lowers to these
fragments and to slots for the values in their order, exactly if its arguments lower. -/
theorem template_reads_back (first : Bytes) (rest : List Bytes) :
    splitFormat (templateOf (first :: rest)) = first :: rest ∧
    ∀ (place : Place) (path : List Bytes) (args : List Expr) (templatePos pos : Pos),
      lastSegment path = "format" →
      lowerExpr place (.macroCall path
          (.lit ⟨.string, templateOf (first :: rest), templatePos⟩ :: args) false pos) =
        (fun values => place.finish
          (.format (first :: rest) ((List.range' 1 rest.length).map Int.ofNat) values)) <$>
            lowerValues args := by
  have hsplit := splitFormat_templateOf first rest
  refine ⟨hsplit, fun place path args templatePos pos hname => ?_⟩
  have hslots : (List.range rest.length).map (fun (i : Nat) => (i : Int) + 1) =
      (List.range' 1 rest.length).map Int.ofNat := by
    simp [List.range'_eq_map_range, Nat.add_comm]
  have hformat (values : List Ir.Item) : formatItem (templateOf (first :: rest)) values =
      .format (first :: rest) ((List.range' 1 rest.length).map Int.ofNat) values := by
    rw [formatItem, hsplit, ← hslots]
    rfl
  have hprint : ¬ (Bytes.ofString "format" = "println" ∨ Bytes.ofString "format" = "print") := by
    decide
  simp only [lowerExpr, hname, if_neg hprint, if_true, Bool.false_eq_true, if_false, hformat]
  rfl

/-- Runs of braces on both sides of a mark. -/
theorem template_reads_back_runs :
    templateOf ["\x7b", "\x7d\x7d"] = "\x7b\x7b\x7b\x7d\x7d\x7d\x7d\x7d" ∧
    splitFormat "\x7b\x7b\x7b\x7d\x7d\x7d\x7d\x7d" = ["\x7b", "\x7d\x7d"].map Bytes.ofString ∧
    lowerExpr .value (.macroCall ["format"]
        [.lit ⟨.string, "\x7b\x7b\x7b\x7d\x7d\x7d\x7d\x7d", ⟨1, 9⟩⟩, .path ["x"] ⟨1, 21⟩] false
        ⟨1, 1⟩) =
      .ok (.format (["\x7b", "\x7d\x7d"].map Bytes.ofString) [1] [.ident "x"]) := by
  have htemplate : templateOf ["\x7b", "\x7d\x7d"] = "\x7b\x7b\x7b\x7d\x7d\x7d\x7d\x7d" := by
    decide
  obtain ⟨hsplit, hlower⟩ := template_reads_back "\x7b" ["\x7d\x7d"]
  have hformat := hlower .value ["format"] [.path ["x"] ⟨1, 21⟩] ⟨1, 9⟩ ⟨1, 1⟩ rfl
  rw [htemplate] at hsplit hformat
  exact ⟨htemplate, hsplit, hformat⟩

end RustLua.Lowering
