import RustLua.Lua.Piece
import RustLua.Lua.Text
import RustLua.Proofs.Bytes.Digits

/-! # Where Lua text opens a comment

A comment starts at two minus signs outside a string literal. A reader with four modes
finds the first one; texts that leave it where it was, outside of literals and not
behind a minus sign, can be put anywhere (`Neutral`). -/
namespace RustLua.Lua

variable {b : UInt8} {text : Bytes}

/-- How a reader stands that looks for comments. -/
inductive Mode where
  | code
  /-- Behind a minus sign. -/
  | dash
  | literal
  /-- Behind a backslash in a literal. -/
  | escaped
deriving DecidableEq, Repr

/-- Read a byte; there is no mode behind a second minus sign. -/
def Mode.next? : Mode → UInt8 → Option Mode
  | .literal, b =>
    some (if b = Ascii.backslash then .escaped else if b = Ascii.quote then .code else .literal)
  | .escaped, _ => some .literal
  | mode, b =>
    if b = Ascii.quote then some .literal
    else if b ≠ Ascii.minus then some .code
    else if mode = .dash then none else some .dash

def Mode.run? (mode : Mode) (text : Bytes) : Option Mode := text.foldlM Mode.next? mode

/-- Does a text hold two minus signs in a row outside of its literals? -/
def opensComment (text : Bytes) : Bool := (Mode.code.run? text).isNone

@[simp] theorem Mode.run?_nil (mode : Mode) : mode.run? [] = some mode := rfl

theorem Mode.run?_cons (mode : Mode) (b : UInt8) (text : Bytes) :
    mode.run? (b :: text) = (mode.next? b).bind fun m => m.run? text := rfl

theorem Mode.run?_append (mode : Mode) (a b : Bytes) :
    mode.run? (a ++ b) = (mode.run? a).bind fun m => m.run? b := by
  unfold Mode.run?
  rw [List.foldlM_append]
  rfl

/-! ## Plain bytes -/

/-- A byte without a meaning of its own to the reader. -/
def isPlain (b : UInt8) : Bool := b != Ascii.quote && b != Ascii.minus && b != Ascii.backslash

theorem isPlain_iff :
    isPlain b = true ↔ b ≠ Ascii.quote ∧ b ≠ Ascii.minus ∧ b ≠ Ascii.backslash := by
  simp [isPlain, and_assoc]

theorem isPlain_isWord (h : Ascii.isWord b = true) : isPlain b = true := by
  rw [isPlain_iff]
  refine ⟨?_, ?_, ?_⟩ <;> rintro rfl <;> cases h

theorem isPlain_toDigits {base : Nat} (hb : 1 < base) (hb' : base ≤ 16) (n : Nat) :
    ((Nat.toDigits base n).map Bytes.ofAscii).all isPlain = true := by
  have hdigit : ∀ k < 16, isPlain (Bytes.ofAscii (Nat.digitChar k)) = true := by decide
  rw [List.all_eq_true]
  intro b hm
  obtain ⟨c, hc, rfl⟩ := List.mem_map.mp hm
  exact Bytes.forall_mem_toDigits (P := fun c => isPlain (Bytes.ofAscii c) = true) hb
    (fun k hk => hdigit k (by omega)) n c hc

theorem isPlain_decimal (n : Nat) : (Bytes.decimal n).all isPlain = true :=
  isPlain_toDigits (by decide) (by decide) n

theorem isPlain_replicate (n : Nat) (hb : isPlain b = true) :
    (List.replicate n b).all isPlain = true := by
  rw [List.all_eq_true]
  intro c hc
  rw [List.eq_of_mem_replicate hc]
  exact hb

theorem isPlain_decimalPadded (width n : Nat) :
    (Bytes.decimalPadded width n).all isPlain = true := by
  rw [Bytes.decimalPadded, List.all_append, isPlain_replicate _ (by decide), isPlain_decimal]
  rfl

theorem isPlain_hexadecimal (width n : Nat) :
    (Bytes.hexadecimal width n).all isPlain = true := by
  rw [Bytes.hexadecimal, List.all_append, isPlain_replicate _ (by decide),
    isPlain_toDigits (by decide) (by decide)]
  rfl

/-! ## Neutral texts -/

/-- A text behind which code goes on as if nothing had been there. -/
def Neutral (text : Bytes) : Prop :=
  ∀ mode : Mode, mode = .code ∨ mode = .dash → mode.run? text = some .code

theorem Neutral.append {a b : Bytes} (ha : Neutral a) (hb : Neutral b) : Neutral (a ++ b) := by
  intro mode hm
  rw [Mode.run?_append, ha mode hm]
  exact hb .code (.inl rfl)

theorem next?_plain {mode : Mode} (hm : mode = .code ∨ mode = .dash)
    (hb : isPlain b = true) : mode.next? b = some .code := by
  obtain ⟨hq, hd, _⟩ := isPlain_iff.mp hb
  rcases hm with rfl | rfl <;> simp [Mode.next?, hq, hd]

theorem neutral_plain (hne : text ≠ []) (h : text.all isPlain = true) :
    Neutral text := by
  intro mode hm
  induction text generalizing mode with
  | nil => exact absurd rfl hne
  | cons b rest ih =>
    rw [List.all_cons, Bool.and_eq_true] at h
    rw [Mode.run?_cons, next?_plain hm h.1, Option.bind_some]
    cases rest with
    | nil => rfl
    | cons c rest => exact ih (by simp) h.2 .code (.inl rfl)

theorem run?_code_plain (h : text.all isPlain = true) :
    Mode.code.run? text = some .code := by
  cases text with
  | nil => rfl
  | cons b rest => exact neutral_plain (by simp) h .code (.inl rfl)

theorem Neutral.append_plain {a b : Bytes} (ha : Neutral a) (hb : b.all isPlain = true) :
    Neutral (a ++ b) := by
  intro mode hm
  rw [Mode.run?_append, ha mode hm, Option.bind_some, run?_code_plain hb]

/-- One minus sign between neutral texts does no harm. -/
theorem Neutral.append_dash {a b : Bytes} (ha : Neutral a) (hb : Neutral b) :
    Neutral (a ++ Ascii.minus :: b) := by
  intro mode hm
  rw [Mode.run?_append, ha mode hm, Option.bind_some, Mode.run?_cons]
  exact hb .dash (.inr rfl)

theorem neutral_word {name : Bytes} (h : isWord name = true) : Neutral name := by
  cases name with
  | nil => cases h
  | cons b rest =>
    simp only [isWord, Bool.and_eq_true, List.all_eq_true] at h
    refine neutral_plain (by simp) ?_
    rw [List.all_cons, Bool.and_eq_true, List.all_eq_true]
    exact ⟨isPlain_isWord (by simp [Ascii.isWord, h.1]), fun c hc => isPlain_isWord (h.2 c hc)⟩

theorem neutral_decimal (n : Nat) : Neutral (Bytes.decimal n) :=
  neutral_plain (Bytes.decimal_ne_nil n) (isPlain_decimal n)

/-! ## Floats -/

theorem isPlain_trimZeros {digits : Bytes} (h : digits.all isPlain = true) :
    (Decimal.trimZeros digits).all isPlain = true := by
  rw [Decimal.trimZeros, List.all_reverse]
  rw [← List.all_reverse] at h
  rw [List.all_eq_true] at h ⊢
  exact fun b hb => h b (List.dropWhile_subset _ hb)

theorem isPlain_shortest (m : Nat) (e : Int) :
    (Decimal.shortest m e).digits.all isPlain = true :=
  isPlain_trimZeros (isPlain_decimal _)

theorem isPlain_onlyIf {condition : Bool} (h : text.all isPlain = true) :
    (Bytes.onlyIf condition text).all isPlain = true := by
  cases condition with
  | false => rfl
  | true => exact h

theorem Neutral.append_exponentText {a : Bytes} (ha : Neutral a) (x : Int) :
    Neutral (a ++ Double.exponentText x) := by
  have hdigits : (Bytes.onlyIf ((Bytes.decimal x.natAbs).length < 2) "0" ++
      Bytes.decimal x.natAbs).all isPlain = true := by
    rw [List.all_append, isPlain_onlyIf (by decide), isPlain_decimal]
    rfl
  have hne : Bytes.onlyIf ((Bytes.decimal x.natAbs).length < 2) "0" ++
      Bytes.decimal x.natAbs ≠ [] := by
    simp [Bytes.decimal_ne_nil]
  simp only [Double.exponentText, List.append_assoc]
  split
  · exact ha.append_dash (neutral_plain hne hdigits)
  · rw [← List.append_assoc]
    exact (ha.append_plain (by decide)).append (neutral_plain hne hdigits)

theorem neutral_scientificText {d : Decimal.Digits} (h : d.digits.all isPlain = true) :
    Neutral (Double.scientificText d) := by
  have hall := List.all_eq_true.mp h
  have htake : (d.digits.take 1).all isPlain = true :=
    List.all_eq_true.mpr fun b hb => hall b (List.mem_of_mem_take hb)
  have hdrop : (d.digits.drop 1).all isPlain = true :=
    List.all_eq_true.mpr fun b hb => hall b (List.mem_of_mem_drop hb)
  refine (neutral_plain (List.append_ne_nil_of_right_ne_nil _ (by decide)) ?_).append_exponentText _
  simp only [List.all_append, Bool.and_eq_true]
  refine ⟨⟨htake, isPlain_onlyIf ?_⟩, by decide⟩
  rw [List.all_append, hdrop]
  rfl

theorem neutral_positionalText {d : Decimal.Digits} (h : d.digits.all isPlain = true) :
    Neutral (Double.positionalText d) := by
  have hall := List.all_eq_true.mp h
  have htake : (d.digits.take d.point.toNat).all isPlain = true :=
    List.all_eq_true.mpr fun b hb => hall b (List.mem_of_mem_take hb)
  have hdrop : (d.digits.drop d.point.toNat).all isPlain = true :=
    List.all_eq_true.mpr fun b hb => hall b (List.mem_of_mem_drop hb)
  have hzeros (n : Nat) := isPlain_replicate n (b := Bytes.ofAscii '0') (by decide)
  simp only [Double.positionalText]
  refine Neutral.append_plain ?_ (isPlain_onlyIf ?_)
  · split
    · exact neutral_plain (by decide) (by decide)
    · rename_i hne
      refine neutral_plain (fun he => hne (by rw [he]; rfl)) ?_
      rw [List.all_append, htake, hzeros]
      rfl
  · rw [List.all_append, List.all_append, hzeros, hdrop]
    rfl

theorem neutral_plainText (d : Double) : Neutral d.plainText := by
  unfold Double.plainText
  split
  · exact neutral_plain (by decide) (by decide)
  · simp only
    split
    · exact neutral_scientificText (isPlain_shortest _ _)
    · exact neutral_positionalText (isPlain_shortest _ _)

theorem neutral_text {d : Double} (h : d.isNegative = false) : Neutral d.text := by
  simp only [Double.text, h, Bytes.onlyIf, Bool.false_eq_true, if_false, List.nil_append]
  exact (neutral_plainText d).append_plain (isPlain_onlyIf (by decide))

theorem isNegative_eq_msb (d : Double) : d.isNegative = d.bits.toBitVec.msb := by
  rw [BitVec.msb_eq_decide]
  rfl

theorem isNegative_neg (d : Double) : d.neg.isNegative = !d.isNegative := by
  rw [isNegative_eq_msb, isNegative_eq_msb]
  simp only [Double.neg, UInt64.toBitVec_xor, BitVec.msb_xor]
  cases d.bits.toBitVec.msb <;> rfl

/-! ## String literals -/

/-- A text that does not leave the literal it stands in. -/
def Inner (text : Bytes) : Prop := Mode.literal.run? text = some .literal

theorem Inner.append {a b : Bytes} (ha : Inner a) (hb : Inner b) : Inner (a ++ b) := by
  unfold Inner at *
  rw [Mode.run?_append, ha]
  exact hb

theorem inner_flatMap {α : Type} {f : α → Bytes} (list : List α) (h : ∀ a, Inner (f a)) :
    Inner (list.flatMap f) := by
  induction list with
  | nil => rfl
  | cons a rest ih =>
    rw [List.flatMap_cons]
    exact (h a).append ih

theorem inner_byte (hq : b ≠ Ascii.quote) (hb : b ≠ Ascii.backslash) : Inner [b] := by
  simp [Inner, Mode.run?_cons, Mode.next?, hq, hb]

theorem inner_plain (h : text.all isPlain = true) : Inner text := by
  induction text with
  | nil => rfl
  | cons b rest ih =>
    rw [List.all_cons, Bool.and_eq_true] at h
    obtain ⟨hq, _, hb⟩ := isPlain_iff.mp h.1
    exact (inner_byte hq hb).append (ih h.2)

/-- A backslash takes the next byte with it. -/
theorem inner_backslash (hne : text ≠ []) (h : text.all isPlain = true) :
    Inner (Bytes.ofString "\\" ++ text) := by
  cases text with
  | nil => exact absurd rfl hne
  | cons b rest =>
    rw [List.all_cons, Bool.and_eq_true] at h
    have hrest : Inner rest := inner_plain h.2
    exact hrest

theorem inner_numbered (n : Nat) : Inner (Bytes.ofString "\\" ++ Bytes.decimalPadded 3 n) := by
  refine inner_backslash ?_ (isPlain_decimalPadded 3 n)
  simp [Bytes.decimalPadded, Bytes.decimal_ne_nil]

theorem inner_ascii {n : Nat} (hn : n < 0x80) (hb : n ≠ 0x5C) (hq : n ≠ 0x22) :
    Inner [n.toUInt8] := by
  have hval : n.toUInt8.toNat = n := by
    simp only [Nat.toUInt8_eq, UInt8.toNat_ofNat']
    omega
  refine inner_byte ?_ ?_
  · intro he
    rw [he] at hval
    exact hq hval.symm
  · intro he
    rw [he] at hval
    exact hb hval.symm

theorem inner_escapeChar (c : Char) : Inner (escapeChar c) := by
  unfold escapeChar
  simp only
  iterate 9 (split; · rfl)
  split
  · exact inner_numbered _
  split
  · rw [List.append_assoc]
    exact (show Inner "\\u\x7b" from rfl).append ((inner_plain (isPlain_hexadecimal _ _)).append rfl)
  · exact inner_ascii (by omega) ‹_› ‹_›

theorem inner_escape (text : Bytes) : Inner (escape text) := by
  refine inner_flatMap _ fun chunk => ?_
  cases chunk with
  | char c => exact inner_escapeChar c
  | stray b => exact inner_numbered _

theorem inner_intercalate {separator : Bytes} (hs : Inner separator) {parts : List Bytes}
    (h : ∀ p ∈ parts, Inner p) : Inner (separator.intercalate parts) := by
  induction parts with
  | nil => rfl
  | cons first rest ih =>
    obtain ⟨hf, hr⟩ := List.forall_mem_cons.mp h
    cases rest with
    | nil =>
      rw [List.intercalate_singleton]
      exact hf
    | cons second rest =>
      rw [List.intercalate_cons_cons]
      exact (hf.append hs).append (ih hr)

/-- What is inside quotes is a literal as a whole. -/
theorem neutral_quoted (h : Inner text) :
    Neutral (Bytes.ofString "\"" ++ text ++ Bytes.ofString "\"") := by
  intro mode hm
  have hopen : mode.run? (Bytes.ofString "\"") = some .literal := by
    rcases hm with rfl | rfl <;> rfl
  rw [Mode.run?_append, Mode.run?_append, hopen, Option.bind_some, h]
  rfl

theorem neutral_quote (text : Bytes) : Neutral (quote text) := neutral_quoted (inner_escape text)

theorem neutral_template (fragments : List Bytes) : Neutral (template fragments) := by
  refine neutral_quoted (inner_intercalate (show Inner "%s" from rfl) ?_)
  intro p hp
  obtain ⟨f, _, rfl⟩ := List.mem_map.mp hp
  exact inner_escape _

end RustLua.Lua
