import RustLua.Proofs.Lua.Percents
import RustLua.Proofs.Lua.Quoted
import RustLua.Proofs.Lua.Uses

/-! # Formats read back

A format is a call whose first argument is read twice by Lua: as a literal, and what that
stands for as a template, where percent signs stand for themselves in pairs and start
directives otherwise. Both readings undo what was done to the fragments, one by one, and so
the directives that are left are those between the fragments. -/
namespace RustLua.Lua

open Ir (Item Program)

/-! ## Lua's reader of templates -/

/-- Flags, width and precision of a directive. -/
def isModifier (b : UInt8) : Bool := b ∈ Bytes.ofString "-+ #." || Ascii.isDigit b

/-- The letters that directives end with. -/
def conversions : Bytes := "aAcdeEfFgGiopqsuxX"

/-- The directive behind a percent sign: modifiers and a letter. -/
def directive? (text : Bytes) : Option Bytes :=
  let modifiers := text.takeWhile isModifier
  match text[modifiers.length]? with
  | some letter => if letter ∈ conversions then some (modifiers ++ [letter]) else none
  | none => none

/-- The text up to the first directive, then each directive with the text behind it. The first
bytes, `skip` of them, belong to what has been read. -/
def formatFrom? : Nat → Bytes → Option (Bytes × List (Bytes × Bytes))
  | _, [] => some ([], [])
  | skip + 1, _ :: rest => formatFrom? skip rest
  | 0, b :: rest =>
    if b ≠ Ascii.percent then (formatFrom? 0 rest).map fun (text, more) => (b :: text, more)
    else if rest.head? = some Ascii.percent then
      (formatFrom? 1 rest).map fun (text, more) => (b :: text, more)
    else match directive? rest with
      | some directive =>
        (formatFrom? directive.length rest).map fun (text, more) =>
          ([], (directive, text) :: more)
      | none => none

/-- A template, read: its texts and the directives between them. -/
def format? (template : Bytes) : Option (List Bytes × List Bytes) :=
  (formatFrom? 0 template).map fun (text, more) =>
    (text :: more.map Prod.snd, more.map Prod.fst)

/-- Doubled percent signs stand for themselves, whatever follows. -/
theorem formatFrom?_doublePercents (text rest : Bytes) :
    formatFrom? 0 (doublePercents text ++ rest) =
      (formatFrom? 0 rest).map fun (more, directives) => (text ++ more, directives) := by
  induction text with
  | nil => simp [doublePercents]
  | cons b text ih =>
    by_cases hb : b = Ascii.percent
    · have hpair : doublePercents (b :: text) = b :: b :: doublePercents text := by
        simp [doublePercents, hb]
      rw [hpair, List.cons_append, List.cons_append, formatFrom?, if_neg (not_not_intro hb),
        if_pos (by rw [hb]; rfl), formatFrom?, ih, Option.map_map]
      rfl
    · rw [doublePercents_cons hb, List.cons_append, formatFrom?, if_pos hb, ih, Option.map_map]
      rfl

theorem formatFrom?_directive (rest : Bytes) :
    formatFrom? 0 (Bytes.ofString "%s" ++ rest) =
      (formatFrom? 0 rest).map fun (text, more) => ([], (Bytes.ofString "s", text) :: more) := by
  have hspelling : Bytes.ofString "%s" ++ rest = Ascii.percent :: (Bytes.ofString "s" ++ rest) :=
    rfl
  have hmodifier : isModifier (Bytes.ofAscii 's') = false := by decide
  have hletter : Bytes.ofAscii 's' ∈ conversions := by decide
  have hs : Bytes.ofString "s" = [Bytes.ofAscii 's'] := rfl
  have hdirective : directive? (Bytes.ofString "s" ++ rest) = some (Bytes.ofString "s") := by
    simp [directive?, hs, hmodifier, hletter]
  have hpair : (Bytes.ofString "s" ++ rest).head? ≠ some Ascii.percent :=
    fun h => absurd (Option.some.inj h) (by decide)
  rw [hspelling, formatFrom?, if_neg (not_not_intro rfl), if_neg hpair, hdirective]
  rfl

theorem formatFrom?_join (first : Bytes) (texts : List Bytes) :
    formatFrom? 0 (Bytes.join "%s" ((first :: texts).map doublePercents)) =
      some (first, texts.map fun text => (Bytes.ofString "s", text)) := by
  induction texts generalizing first with
  | nil =>
    have hone := formatFrom?_doublePercents first []
    simpa [Bytes.join, formatFrom?] using hone
  | cons second texts ih =>
    have hjoin : Bytes.join "%s" ((first :: second :: texts).map doublePercents) =
        doublePercents first ++ (Bytes.ofString "%s" ++
          Bytes.join "%s" ((second :: texts).map doublePercents)) := by
      simp [Bytes.join, List.intercalate_cons_cons]
    rw [hjoin, formatFrom?_doublePercents, formatFrom?_directive, ih]
    simp

/-- Texts between directives are read one by one. -/
theorem format?_join {texts : List Bytes} {n : Nat} (h : texts.length = n + 1) :
    format? (Bytes.join "%s" (texts.map doublePercents)) =
      some (texts, List.replicate n (Bytes.ofString "s")) := by
  obtain ⟨first, texts, rfl⟩ := List.exists_cons_of_length_eq_add_one h
  obtain rfl : texts.length = n := by simpa using h
  rw [format?, formatFrom?_join]
  simp [Function.comp_def]

/-! ## The literal of a template -/

theorem standsFor_join (fragments : List Bytes) :
    StandsFor (Bytes.join "%s" (fragments.map fun f => escape (doublePercents f)))
      (Bytes.join "%s" ((fragments.map Unicode.nfc).map doublePercents)) := by
  have hfragment (f : Bytes) :
      StandsFor (escape (doublePercents f)) (doublePercents (Unicode.nfc f)) := by
    have h := (spells_escape (doublePercents f)).stands
    rwa [nfc_doublePercents] at h
  have hdirective : StandsFor (Bytes.ofString "%s") (Bytes.ofString "%s") :=
    (standsFor_byte (b := Ascii.percent) (by decide) (by decide) (by decide)).append
      (standsFor_byte (b := Bytes.ofAscii 's') (by decide) (by decide) (by decide))
  induction fragments with
  | nil => exact standsFor_nil
  | cons first rest ih =>
    cases rest with
    | nil => simpa [Bytes.join] using hfragment first
    | cons second rest =>
      have h := ((hfragment first).append hdirective).append ih
      simpa [Bytes.join, List.intercalate_cons_cons] using h

theorem literal?_template (fragments : List Bytes) (rest : Bytes) :
    literal? (template fragments ++ rest) =
      some (Bytes.join "%s" ((fragments.map Unicode.nfc).map doublePercents), rest) := by
  have hquote : Bytes.ofString "\"" = [Ascii.quote] := rfl
  have hsplit : template fragments ++ rest = Ascii.quote ::
      (Bytes.join "%s" (fragments.map fun f => escape (doublePercents f)) ++
        Ascii.quote :: rest) := by
    simp [template, hquote]
  rw [hsplit, literal?, if_pos rfl, standsFor_join]
  simp [literalFrom?]

/-! ## The call -/

theorem Pieces.text_append (a b : Pieces) : Pieces.text (a ++ b) = a.text ++ b.text :=
  List.flatMap_append

theorem Pieces.text_commaSeparated (list : List Pieces) :
    (commaSeparated list).text = Bytes.join "," (list.map Pieces.text) := by
  induction list with
  | nil => rfl
  | cons first rest ih =>
    cases rest with
    | nil => simp [commaSeparated, Bytes.join]
    | cons second rest =>
      rw [commaSeparated] at ih
      rw [commaSeparated, List.intercalate_cons_cons, Pieces.text_append, Pieces.text_append, ih,
        Bytes.join, Bytes.join, List.map_cons, List.map_cons, List.map_cons,
        List.intercalate_cons_cons]
      rfl

/-- The text of a call of the formatting function. -/
theorem text_formatCall (spelling : Bytes) (args : List Pieces) :
    Pieces.text (member "string" "format" ++
        parenthesized (commaSeparated ([.literal spelling] :: args))) =
      "string.format(" ++ Bytes.join "," (spelling :: args.map Pieces.text) ++ ")" := by
  have hfunction : Pieces.text (member "string" "format" ++ [.mark .parenOpen]) =
      Bytes.ofString "string.format(" := by decide
  have hclose : Pieces.text [.mark .parenClose] = Bytes.ofString ")" := by decide
  have hliteral : Pieces.text [.literal spelling] = spelling := List.append_nil _
  have hpieces (inner : Pieces) : member "string" "format" ++ parenthesized inner =
      (member "string" "format" ++ [.mark .parenOpen]) ++ inner ++ [.mark .parenClose] := by
    simp [parenthesized]
  rw [hpieces, Pieces.text_append, Pieces.text_append, hfunction, hclose,
    Pieces.text_commaSeparated, List.map_cons, hliteral]

/-- Every format that is rendered is a call in the text whose first argument, read as a literal
and then as a template, gives the composed fragments with plain directives between them; and
its other arguments are what the slots ask for. -/
theorem format_reads_back {s : Settings} {program : Program} {text : Bytes} {u : Use}
    {fragments : List Bytes} {slots : List Int} {values : List Item}
    (h : generate s (some program) = .ok text)
    (hx : program.Shows u (.format fragments slots values)) :
    ∃ (before after bytes : Bytes) (args : List Pieces),
      text = before ++ ("string.format(" ++
        Bytes.join "," (template fragments :: args.map Pieces.text) ++ ")") ++ after ∧
      (∀ rest, literal? (template fragments ++ rest) = some (bytes, rest)) ∧
      format? bytes =
        some (fragments.map Unicode.nfc, List.replicate slots.length (Bytes.ofString "s")) ∧
      List.Forall₂ (fun slot arg => 1 ≤ slot ∧ ∃ value, values[slot.toNat - 1]? = some value ∧
        renderItem s .value value = .ok arg) slots args := by
  obtain ⟨pieces, hpieces, rfl⟩ := map_eq_ok.mp h
  obtain ⟨p, ⟨place, -, hp⟩, hin⟩ := carries_renderProgram hpieces hx
  simp only [renderItem, bind_eq_ok, pure_eq_ok, formatPieces_eq_ok_iff] at hp
  obtain ⟨call, ⟨hcount, -, args, hargs, rfl⟩, rfl⟩ := hp
  obtain ⟨before, after, hsplit⟩ := infix_finishValue.trans hin
  refine ⟨Pieces.text before, Pieces.text after, _, args, ?_, literal?_template fragments,
    format?_join (by simpa using hcount), ?_⟩
  · rw [← hsplit, Pieces.text_append, Pieces.text_append, text_formatCall]
  · refine (slotArguments_eq_ok_iff.mp hargs).imp fun slot arg hread => ⟨hread.1, ?_⟩
    have hvalue := hread.2
    rw [getElem?_renderEach] at hvalue
    exact Option.map_eq_some_iff.mp hvalue

/-- Signs at the ends of fragments and what looks like a directive inside one do not disturb
the order of the arguments. -/
theorem format_reads_back_signs :
    ∃ (before after bytes : Bytes) (args : List Pieces),
      "function f()return string.format(\"%%%s\\u\x7be9\x7d%%s%s\\\"%%\",b+1,a);end;" =
        before ++ ("string.format(" ++
          Bytes.join "," (template ["%", "e\u0301%s", "\"%"] :: args.map Pieces.text) ++ ")") ++
          after ∧
      (∀ rest, literal? (template ["%", "e\u0301%s", "\"%"] ++ rest) = some (bytes, rest)) ∧
      format? bytes =
        some (["%", "\u00e9%s", "\"%"].map Bytes.ofString, ["s", "s"].map Bytes.ofString) ∧
      List.Forall₂ (fun (slot : Int) arg => 1 ≤ slot ∧ ∃ value,
          [Item.ident "a", .binary .add (.ident "b") (.integer 1)][slot.toNat - 1]? = some value ∧
          renderItem {} .value value = .ok arg) [2, 1] args := by
  have h : generate {} (some ⟨[.function "f" [] [.returnValue (.format
      ["%", "e\u0301%s", "\"%"] [2, 1]
      [.ident "a", .binary .add (.ident "b") (.integer 1)])]]⟩) =
      .ok "function f()return string.format(\"%%%s\\u\x7be9\x7d%%s%s\\\"%%\",b+1,a);end;" :=
    ok_of_toOption (by decide +kernel)
  have hx : Program.Shows ⟨[.function "f" [] [.returnValue (.format
      ["%", "e\u0301%s", "\"%"] [2, 1]
      [.ident "a", .binary .add (.ident "b") (.integer 1)])]]⟩ .value
      (.format ["%", "e\u0301%s", "\"%"] [2, 1]
        [.ident "a", .binary .add (.ident "b") (.integer 1)]) :=
    ⟨_, List.mem_singleton_self _, .down (Item.shows_item List.mem_cons_self)
      (.down (Item.shows_optional List.mem_cons_self nofun) .self)⟩
  have hcomposed : ([("%" : Bytes), "e\u0301%s", "\"%"].map Unicode.nfc) =
      ["%", "\u00e9%s", "\"%"].map Bytes.ofString := by decide +kernel
  have hread := format_reads_back h hx
  rwa [hcomposed] at hread

end RustLua.Lua
