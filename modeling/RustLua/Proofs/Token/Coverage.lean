import RustLua.Proofs.Token.Layout

/-! # Tokens cover their source

A token stands where its first byte stands, is spelled by the bytes from there to its end,
and between the tokens is nothing but layout. Positions are kept byte by byte while the
source is read; `StandsAt` says what they amount to. -/
namespace RustLua.Token

variable {source text : Bytes} {n : Nat} {pos : Pos} {tokens : List Token}

/-! ## Positions -/

/-- The position of an offset: lines are counted by the newlines before it, columns from the
last of these, or from the beginning of the source. -/
structure StandsAt (source : Bytes) (offset : Nat) (pos : Pos) : Prop where
  line : pos.line = 1 + (source.take offset).count Ascii.newline
  column : (Ascii.newline ∉ source.take offset ∧ pos.column = offset + 1) ∨
    ∃ last, last < offset ∧ source[last]? = some Ascii.newline ∧
      (∀ i, last < i → i < offset → source[i]? ≠ some Ascii.newline) ∧
      pos.column = offset - last

theorem standsAt_start (source : Bytes) : StandsAt source 0 Pos.start :=
  ⟨rfl, .inl ⟨List.not_mem_nil, rfl⟩⟩

/-- One byte further. -/
theorem StandsAt.after {b : UInt8} (h : StandsAt source n pos) (hb : source[n]? = some b) :
    StandsAt source (n + 1) (pos.after b) := by
  have htake : source.take (n + 1) = source.take n ++ [b] := by
    rw [List.take_add_one, hb]
    rfl
  by_cases hnewline : b = Ascii.newline
  · subst hnewline
    rw [Pos.after, if_pos rfl]
    refine ⟨?_, .inr ⟨n, Nat.lt_succ_self n, hb, fun i _ _ => by omega, by simp⟩⟩
    rw [htake, List.count_append, h.line]
    rfl
  · rw [Pos.after, if_neg hnewline]
    refine ⟨?_, ?_⟩
    · rw [htake, List.count_append, List.count_singleton, h.line]
      simp [hnewline]
    · rcases h.column with ⟨hnone, hcolumn⟩ | ⟨last, hlast, hat, hnone, hcolumn⟩
      · refine .inl ⟨?_, congrArg (· + 1) hcolumn⟩
        rw [htake, List.mem_append, List.mem_singleton, not_or]
        exact ⟨hnone, Ne.symm hnewline⟩
      · refine .inr ⟨last, Nat.lt_succ_of_lt hlast, hat, fun i hi hlt => ?_, ?_⟩
        · rcases Nat.lt_succ_iff_lt_or_eq.mp hlt with hlt | rfl
          · exact hnone i hi hlt
          · rw [hb]
            exact fun h => hnewline (Option.some.inj h)
        · simp only
          omega

theorem StandsAt.afterAll (h : StandsAt source n pos) (htext : text <+: source.drop n) :
    StandsAt source (n + text.length) (pos.afterAll text) := by
  induction text generalizing n pos with
  | nil => exact h
  | cons b text ih =>
    obtain ⟨more, hmore⟩ := htext
    have hb : source[n]? = some b := by
      rw [← Nat.add_zero n, ← List.getElem?_drop, ← hmore]
      rfl
    have hnext : text <+: source.drop (n + 1) := by
      rw [← List.drop_drop, ← hmore]
      exact List.prefix_append text more
    have hstep := ih (h.after hb) hnext
    rwa [Nat.add_assoc, Nat.add_comm 1] at hstep

/-! ## Coverage -/

/-- The bytes from one offset to another. -/
def slice (source : Bytes) (start stop : Nat) : Bytes := (source.drop start).take (stop - start)

/-- The tokens cover the source from an offset on: layout, a token, layout, and so on to
the end. -/
inductive Covers (source : Bytes) : Nat → List Token → Prop
  | last {start stop : Nat} {pos : Pos} (hstart : start ≤ stop)
      (hgap : LastLayout (slice source start stop))
      (hstop : stop = source.length ∨ source[stop]? = some Ascii.nul)
      (hpos : StandsAt source stop pos) : Covers source start [endToken pos]
  | token {last start stop : Nat} {t : Token} {more : List Token} (hlast : last ≤ start)
      (hstart : start < stop) (hstop : stop ≤ source.length)
      (hgap : Layout (slice source last start)) (hkind : t.kind ≠ .eof)
      (hraw : t.raw = slice source start stop) (hpos : StandsAt source start t.pos)
      (hmore : Covers source stop more) : Covers source last (t :: more)

theorem slice_eq (h : text <+: source.drop n) : slice source n (n + text.length) = text := by
  rw [slice, Nat.add_sub_cancel_left]
  exact (List.prefix_iff_eq_take.mp h).symm

theorem covers_of_tokensFrom (hn : n ≤ source.length) (hpos : StandsAt source n pos)
    (h : tokensFrom 0 (source.drop n) pos = .ok tokens)
    (hlegal : ∀ t ∈ tokens, t.kind ≠ .illegal) : Covers source n tokens := by
  induction hm : source.length - n using Nat.strongRecOn generalizing n pos tokens with
  | _ m ih =>
    subst hm
    obtain ⟨gap, rest, hgap⟩ := exists_gap (source.drop n)
    have hbegins : gap <+: source.drop n := ⟨rest, hgap.split.symm⟩
    have hrest : source.drop (n + gap.length) = rest := by
      rw [← List.drop_drop, hgap.split, List.drop_left]
    have hle : n + gap.length ≤ source.length := by
      have := hbegins.length_le
      rw [List.length_drop] at this
      omega
    have hstands := hpos.afterAll hbegins
    have hslice := slice_eq hbegins
    rw [hgap.split, hgap.skipped] at h
    rcases tokensFrom_cases hgap.stop h with ⟨hend, rfl⟩ | ⟨hend, l, more, hl, rfl, hmore⟩
    · refine .last (Nat.le_add_right n _) (by rw [hslice]; exact hgap.last) ?_ hstands
      cases rest with
      | nil => exact .inl (Nat.le_antisymm hle (List.drop_eq_nil_iff.mp hrest))
      | cons b rest =>
        refine .inr ?_
        rw [← Nat.add_zero (n + gap.length), ← List.getElem?_drop, hrest, ← hend b rfl]
        rfl
    · obtain ⟨hl', hlegal⟩ := List.forall_mem_cons.mp hlegal
      obtain ⟨hwidth, hraw, _⟩ := lasting_scan rest l hl hl'
      have hlength := List.length_take_of_le hwidth
      have hword : rest.take l.width <+: source.drop (n + gap.length) := by
        rw [hrest]
        exact List.take_prefix _ _
      have hstop := hstands.afterAll hword
      have hspelled := slice_eq hword
      rw [hlength] at hstop hspelled
      have hpositive := scan_width_pos hl
      have hbound : n + gap.length + l.width ≤ source.length := by
        rw [← hrest, List.length_drop] at hwidth
        omega
      rw [tokensFrom_skip hwidth, ← hrest, List.drop_drop, hrest] at hmore
      refine .token (Nat.le_add_right n _) (Nat.lt_add_of_pos_right hpositive) hbound ?_
        (scanned_of_scan hl).ne_eof ?_ hstands
        (ih _ ?_ hbound hstop hmore hlegal rfl)
      · rw [hslice]
        exact hgap.layout.resolve_right hend
      · rw [hspelled]
        exact hraw
      · omega

/-! ## The first line -/

/-- The source begins with a line that names an interpreter. -/
def Interpreted (source : Bytes) : Prop :=
  Bytes.ofString "#!" <+: source ∧ ¬ Bytes.ofString "#![" <+: source

/-- Where the tokens and their gaps begin: behind the interpreter line, if there is one. -/
def OpensAt (source : Bytes) (offset : Nat) : Prop :=
  (¬ Interpreted source ∧ offset = 0) ∨
    (Interpreted source ∧ offset ≤ source.length ∧ OneLine (source.take offset) ∧
      ∀ b ∈ (source.drop offset).head?, b = Ascii.newline ∨ b = Ascii.nul)

theorem opensAt_interpreterLineWidth (source : Bytes) :
    OpensAt source (interpreterLineWidth source) := by
  have hmark : Bytes.ofString "#!" <+: source ↔ source.take 2 = Bytes.ofString "#!" :=
    List.prefix_iff_eq_take.trans eq_comm
  have hattribute : Bytes.ofString "#![" <+: source ↔ source.take 3 = Bytes.ofString "#![" :=
    List.prefix_iff_eq_take.trans eq_comm
  have hiff : Interpreted source ↔ (source.take 2 == Bytes.ofString "#!" &&
      source.take 3 != Bytes.ofString "#![") = true := by
    rw [Interpreted, hmark, hattribute, Bool.and_eq_true, beq_iff_eq, bne_iff_ne]
  unfold interpreterLineWidth
  split
  · rename_i h
    obtain ⟨hline, hrest⟩ := lineCommentWidth_spec source
    refine .inr ⟨hiff.mpr h, length_takeWhile_le _ source, hline, fun b hb => ?_⟩
    rcases hrest with hend | ⟨more, hmore⟩
    · exact .inr (hend b hb)
    · rw [hmore] at hb
      exact .inl (Option.some.inj hb).symm
  · rename_i h
    exact .inl ⟨fun hi => h (hiff.mp hi), rfl⟩

/-- The tokens of a source without an illegal one cover it: every token stands where it says
and is spelled by the bytes there, and all else is layout, apart from an interpreter line in
front and what follows a NUL. -/
theorem tokens_cover_source (h : tokenize source = .ok tokens)
    (hlegal : ∀ t ∈ tokens, t.kind ≠ .illegal) :
    ∃ start, OpensAt source start ∧ Covers source start tokens := by
  have hopens := opensAt_interpreterLineWidth source
  have hle := interpreterLineWidth_le source
  have hbegins := List.take_prefix (interpreterLineWidth source) (source.drop 0)
  have hpos := (standsAt_start source).afterAll hbegins
  rw [List.drop_zero, List.length_take_of_le hle, Nat.zero_add] at hpos
  rw [tokenize, tokensFrom_skip hle] at h
  exact ⟨_, hopens, covers_of_tokensFrom hle hpos h hlegal⟩

theorem tokens_cover_source_script :
    let source := Bytes.ofString "#!/x\nlet s/*/**/*/=\"p\n\";// e\n'c /* open"
    ∃ tokens, tokenize source = .ok tokens ∧ (∀ t ∈ tokens, t.kind ≠ .illegal) ∧
      ∃ start, OpensAt source start ∧ Covers source start tokens := by
  intro source
  obtain ⟨tokens, h, hlegal⟩ :
      ∃ tokens, tokenize source = .ok tokens ∧ ∀ t ∈ tokens, t.kind ≠ .illegal :=
    ⟨_, rfl, by decide⟩
  exact ⟨tokens, h, hlegal, tokens_cover_source h hlegal⟩

end RustLua.Token
