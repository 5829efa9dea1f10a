import RustLua.Proofs.Outcome
import RustLua.Proofs.Parser.Progress
import RustLua.Proofs.Token.Order

/-! # Where things stand in a file

What the runs of the productions say of a source: where each of its reports stands, and that
its tree is placed if there are none. -/
namespace RustLua.Parser

open RustLua.Tree

variable {tokens : List Token} {t : Token} {source : Bytes}

theorem traced_illegalTokens (tokens : List Token) :
    Traced tokens (illegalTokens tokens).items := by
  intro before d after hsplit
  have hd : d ∈ (illegalTokens tokens).items := by
    rw [hsplit]
    simp
  obtain ⟨t, ht, rfl⟩ := List.mem_map.mp hd
  exact .inl ⟨t, (List.mem_filter.mp ht).1, rfl, rfl⟩

theorem inPlace_start (heof : ∃ t ∈ tokens, t.kind = .eof) : InPlace tokens (start tokens) :=
  ⟨traced_illegalTokens tokens, .inl heof⟩

/-- What a file's tokens give: the reports are traced, and a tree without reports is placed. -/
theorem parseTokens?_inPlace (heof : ∃ t ∈ tokens, t.kind = .eof) {items : List Item} {s : State}
    (h : parseTokens? tokens = some (items, s)) :
    Moved (start tokens) s ∧ Traced tokens s.bag.items ∧
      (s.bag = (start tokens).bag → ∀ i ∈ items, PlacedItem tokens i) := by
  obtain ⟨hm, -, hs, hi⟩ := (reads_items (sound_zero _) .eof (start tokens) rfl
    (List.suffix_refl tokens)).2 items s h
  exact ⟨hm, (hs (inPlace_start heof)).traced, hi⟩

theorem one_le_line (h : Token.tokenize source = .ok tokens) :
    ∀ t ∈ tokens, 1 ≤ t.pos.line := by
  intro t ht
  rcases (Token.ordered_tokensFrom h).behind t ht with hpos | hpos | ⟨hline, -⟩
  · rw [← hpos]
    exact Nat.le_refl 1
  · exact Nat.le_of_lt hpos
  · exact Nat.le_of_eq hline

theorem exists_eof (h : Token.tokenize source = .ok tokens) :
    ∃ t ∈ tokens, t.kind = .eof := by
  obtain ⟨scanned, last, rfl, -⟩ := Token.tokenize_eof h
  exact ⟨Token.endToken last, by simp, rfl⟩

/-- In a file that parses, every node of the tree stands at a token. -/
theorem parseFile_placed {file : File} (h : parseFile source = .ok file) :
    ∃ tokens, Token.tokenize source = .ok tokens ∧ ∀ i ∈ file.items, PlacedItem tokens i := by
  unfold parseFile parse at h
  cases ht : Token.tokenize source with
  | error fault => simp [ht, Functor.map, Except.map] at h
  | ok tokens =>
    obtain ⟨items, s, hr, -⟩ := parseTokens?_eq_some tokens
    obtain ⟨hm, -, hi⟩ := parseTokens?_inPlace (exists_eof ht) hr
    simp only [ht, Functor.map, Except.map, parseTokens, hr] at h
    split at h
    · cases h
    · rename_i hb
      cases h
      exact ⟨tokens, rfl, hi (hm.bag_eq_of_no_errors (by simpa using hb))⟩

/-- A file that parses is built from the names of its tokens. -/
theorem parseFile_genuine {file : File} (h : parseFile source = .ok file) :
    ∃ tokens, Token.tokenize source = .ok tokens ∧ ∀ i ∈ file.items, GenuineItem tokens i := by
  obtain ⟨tokens, ht, hi⟩ := parseFile_placed h
  exact ⟨tokens, ht, fun i hmem => (hi i hmem).genuine⟩

/-- How the reports read after which the end token is taken. -/
theorem EndReport.message {d : Diagnostic} (h : EndReport t d) (hk : t.kind = .eof) :
    d.message = "unexpected end of file in expression" ∨
      d.message = "expected pattern, got end of file" := by
  have hshown : describe t = "end of file" := by rw [describe, hk]
  rcases h with rfl | rfl
  · left
    change (SyntaxError.unexpected t).message = _
    rw [SyntaxError.message, hshown]
    decide
  · right
    change (SyntaxError.expected "pattern" t).message = _
    rw [SyntaxError.message, hshown]
    decide

/-- A report stands at a token, on a line of the source. One that is made behind the end token
stands at 0:0, and the end token is taken only where an expression or a pattern was missing
and the report on that stands at it. -/
theorem report_positions (source : Bytes) (tokens : List Token)
    (h : Token.tokenize source = .ok tokens) :
    ∃ file bag, parse source = .ok (file, bag) ∧
      ∀ before (d : Diagnostic) after, bag.items = before ++ d :: after →
        (∃ t ∈ tokens, d.line = t.pos.line ∧ d.column = t.pos.column ∧ 1 ≤ d.line) ∨
          d.line = 0 ∧ d.column = 0 ∧ ∃ t ∈ tokens, t.kind = .eof ∧ ∃ e ∈ before,
            e.line = t.pos.line ∧ e.column = t.pos.column ∧
              (e.message = "unexpected end of file in expression" ∨
                e.message = "expected pattern, got end of file") := by
  obtain ⟨items, s, hr, -⟩ := parseTokens?_eq_some tokens
  obtain ⟨-, htraced, -⟩ := parseTokens?_inPlace (exists_eof h) hr
  refine ⟨⟨items⟩, s.bag, ?_, fun before d after hsplit => ?_⟩
  · simp [parse, parseTokens, h, hr, Functor.map, Except.map]
  rcases htraced before d after hsplit with ⟨t, ht, hline, hcolumn⟩ | ⟨hline, hcolumn, hend⟩
  · refine .inl ⟨t, ht, hline, hcolumn, ?_⟩
    rw [hline]
    exact Int.ofNat_le.mpr (one_le_line h t ht)
  · obtain ⟨t, ht, hk, e, he, hreport⟩ := hend
    refine .inr ⟨hline, hcolumn, t, ht, hk, e, he, ?_, ?_, hreport.message hk⟩
    · rcases hreport with rfl | rfl <;> rfl
    · rcases hreport with rfl | rfl <;> rfl

/-- The list of arguments is not closed, which is reported at the `;`. The pattern that is missing
behind `let` takes the end token, and what follows is reported at 0:0. -/
theorem report_positions_unfinished_let :
    ∃ tokens file bag before after,
      Token.tokenize "fn f()\x7bg(1;let " = .ok tokens ∧
      parse "fn f()\x7bg(1;let " = .ok (file, bag) ∧
      bag.items = before ++ Diagnostic.mk .error 0 0 "expected ;, got end of file" [] :: after ∧
      ∃ t ∈ tokens, t.kind = .eof ∧ ∃ e ∈ before,
        e.line = t.pos.line ∧ e.column = t.pos.column ∧
          (e.message = "unexpected end of file in expression" ∨
            e.message = "expected pattern, got end of file") := by
  have hreports : (parse "fn f()\x7bg(1;let ").toOption.map (·.2.items) = some (
      [⟨.error, 1, 11, "expected ), got ;", []⟩,
        ⟨.error, 1, 16, "expected pattern, got end of file", []⟩] ++
      ⟨.error, 0, 0, "expected ;, got end of file", []⟩ ::
        [⟨.error, 0, 0, "expected \x7d, got end of file", []⟩]) := by
    decide +kernel
  obtain ⟨⟨file, bag⟩, hparse, hbag⟩ := Option.map_eq_some_iff.mp hreports
  obtain ⟨tokens, htokens⟩ : ∃ tokens, Token.tokenize "fn f()\x7bg(1;let " = .ok tokens :=
    ⟨_, rfl⟩
  obtain ⟨_, _, hparse', hplaces⟩ := report_positions _ tokens htokens
  cases (ok_of_toOption hparse).symm.trans hparse'
  refine ⟨tokens, file, bag, _, _, htokens, ok_of_toOption hparse, hbag, ?_⟩
  rcases hplaces _ _ _ hbag with ⟨_, -, -, -, hline⟩ | ⟨-, -, hend⟩
  · exact absurd hline (by decide)
  · exact hend

/-- The report behind a missing value stands at no token. -/
theorem report_stands_at_no_token :
    ∃ tokens file bag, Token.tokenize "const A=" = .ok tokens ∧
      parse "const A=" = .ok (file, bag) ∧
      ∃ d ∈ bag.items, d.message = "expected ;, got end of file" ∧ d.line = 0 ∧
        ∀ t ∈ tokens, ¬ (d.line = t.pos.line ∧ d.column = t.pos.column) := by
  refine ⟨_, _, _, rfl, rfl, ?_⟩
  decide

end RustLua.Parser
