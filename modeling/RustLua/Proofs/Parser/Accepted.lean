import RustLua.Proofs.Parser.PlacedFiles

/-! # Accepted sources hold no placeholders

What an accepted tree is built from, in terms of its source: its names, literals and
operators are tokens, and no token that can name anything spells the placeholder. The
one path that is no path of names comes from a struct literal: a field that is a number
may stand without a value, and is then read as the variable of that name. -/
namespace RustLua.Parser

open RustLua.Tree

variable {source : Bytes} {tokens : List Token} {file : File}

theorem errorName_not_segment (h : Token.tokenize source = .ok tokens) :
    ¬ IsSegment tokens errorName := by
  rintro ⟨t, ht, hk, hl⟩
  have hword := Token.tokenize_segment h t ht hk
  rw [hl] at hword
  exact absurd hword (by decide)

theorem errorName_not_fieldName (h : Token.tokenize source = .ok tokens) :
    ¬ IsFieldName tokens errorName := by
  rintro ⟨t, ht, hk | hk, hl⟩
  · exact errorName_not_segment h ⟨t, ht, by rw [hk]; rfl, hl⟩
  · have hdigit := Token.tokenize_digit h t ht (by rw [hk]; decide)
    rw [hl] at hdigit
    exact absurd (hdigit (Bytes.ofAscii '<') rfl) (by decide)

/-- The tree of an accepted source is made of its tokens: nothing that the parser puts in
the place of what is missing is in it. -/
theorem parseFile_made_of_tokens (h : parseFile source = .ok file) :
    ∃ tokens, Token.tokenize source = .ok tokens ∧ (∀ i ∈ file.items, GenuineItem tokens i) ∧
      ¬ IsSegment tokens errorName ∧ ¬ IsFieldName tokens errorName ∧
      ∀ t ∈ tokens, t.kind = .kwSelf → t.literal = "self" := by
  obtain ⟨tokens, ht, hi⟩ := parseFile_genuine h
  refine ⟨tokens, ht, hi, errorName_not_segment ht, errorName_not_fieldName ht, ?_⟩
  intro t hm hk
  have hword := Token.tokenize_keyword ht t hm (by rw [hk]; decide)
  rw [hk] at hword
  exact hword

/-- The inner macro call is read twice and loses its argument with the report on it; the
outer one keeps its arguments. -/
theorem parseFile_made_of_tokens_nested_macro :
    ∃ file tokens i, parseFile "fn f(&self)\x7bm!(n!(@),a<1)\x7d" = .ok file ∧ file.items = [i] ∧
      Token.tokenize "fn f(&self)\x7bm!(n!(@),a<1)\x7d" = .ok tokens ∧ GenuineItem tokens i := by
  have hone : (parseFile "fn f(&self)\x7bm!(n!(@),a<1)\x7d").toOption.map (·.items.length) = some 1 := by
    decide +kernel
  obtain ⟨file, hf, hlength⟩ := Option.map_eq_some_iff.mp hone
  obtain ⟨i, hi⟩ := List.length_eq_one_iff.mp hlength
  obtain ⟨tokens, ht, hgenuine, _⟩ := parseFile_made_of_tokens (ok_of_toOption hf)
  exact ⟨file, tokens, i, ok_of_toOption hf, hi, ht, hgenuine i (by simp [hi])⟩

/-- A number is taken for a path. -/
theorem parseFile_integer_path :
    ∃ tokens, Token.tokenize "fn f()\x7bS\x7b0\x7d\x7d" = .ok tokens ∧
      parseFile "fn f()\x7bS\x7b0\x7d\x7d" = .ok ⟨[.fn "f" [] none (some (.mk [.expr (.structLit ["S"]
        [.mk "0" (.path ["0"] ⟨1, 10⟩)] ⟨1, 8⟩) false] ⟨1, 7⟩)) [] false ⟨1, 1⟩]⟩ ∧
      ¬ IsSegment tokens "0" := by
  refine ⟨_, rfl, rfl, ?_⟩
  rintro ⟨t, ht, hk, hl⟩
  revert t
  decide

end RustLua.Parser
