import RustLua.Lua.Render
import RustLua.Proofs.Bytes.Digits
import RustLua.Proofs.Lua.Word

/-! # Labels of loops

Every label but the outermost one has its depth written into it, at a place that the
configured label fixes. Hence labels of different depths differ, whatever the
configured label is, and they are names if that is one. -/
namespace RustLua.Lua

variable (s : Settings)

theorem label_of_le {depth : Nat} (h : depth ≤ 1) : s.label depth = s.continueLabel := by
  simp [Settings.label, h]

/-- The number goes in front of an ending that is the same for all depths. -/
theorem label_split : ∃ front ending, s.continueLabel = front ++ ending ∧
    ∀ depth, 1 < depth → s.label depth = front ++ (Ascii.underscore :: (Bytes.decimal depth ++ ending)) := by
  by_cases h : (Bytes.ofString "__").isSuffixOf s.continueLabel
  · obtain ⟨front, hf⟩ := List.isSuffixOf_iff_suffix.mp h
    refine ⟨front, Bytes.ofString "__", hf.symm, fun depth hd => ?_⟩
    have hd' : ¬ depth ≤ 1 := by omega
    have hdrop : Bytes.dropEnding (Bytes.ofString "__") s.continueLabel = front := by
      rw [Bytes.dropEnding, if_pos h, ← hf]
      simp
    simp only [Settings.label, hd', if_false, h, if_true, hdrop, List.append_assoc]
    rfl
  · refine ⟨s.continueLabel, [], by simp, fun depth hd => ?_⟩
    have hd' : ¬ depth ≤ 1 := by omega
    simp only [Settings.label, hd', if_false, h, List.append_assoc, List.append_nil]
    rfl

/-- Loops of different depths have different labels. -/
theorem label_injective {a b : Nat} (ha : 1 ≤ a) (hb : 1 ≤ b) (h : s.label a = s.label b) :
    a = b := by
  obtain ⟨front, ending, hl, hd⟩ := label_split s
  have hlong {depth : Nat} (h1 : 1 < depth) : s.label depth ≠ s.continueLabel := by
    intro he
    rw [hd depth h1, hl] at he
    have hlen := congrArg List.length he
    simp only [List.length_append, List.length_cons] at hlen
    omega
  by_cases ha' : 1 < a
  · by_cases hb' : 1 < b
    · rw [hd a ha', hd b hb', List.append_cancel_left_eq, List.cons.injEq,
        List.append_cancel_right_eq] at h
      exact Bytes.decimal_injective h.2
    · rw [label_of_le s (by omega : b ≤ 1)] at h
      exact absurd h (hlong ha')
  · rw [label_of_le s (by omega : a ≤ 1)] at h
    by_cases hb' : 1 < b
    · exact absurd h.symm (hlong hb')
    · omega

variable {s}

theorem isName_label (h : isName s.continueLabel = true) (depth : Nat) :
    isName (s.label depth) = true := by
  obtain ⟨front, ending, hl, hd⟩ := label_split s
  by_cases h1 : 1 < depth
  · have hword := isWord_of_isName h
    rw [hl] at hword
    have hending : ending.all Ascii.isWord = true := by
      have hall := all_isWord hword
      rw [List.all_append, Bool.and_eq_true] at hall
      exact hall.2
    have hdigits : (Bytes.decimal depth).all Ascii.isWord = true := by
      rw [List.all_eq_true]
      intro b hb
      simp [Ascii.isWord, Bytes.isDigit_of_mem_decimal hb]
    have hnumbered : isWord (Ascii.underscore :: (Bytes.decimal depth ++ ending)) = true := by
      simp only [isWord, List.all_append, hdigits, hending]
      decide
    rw [hd depth h1, isName, isWord_replace_ending hword hnumbered, not_isReserved (by simp)]
    rfl
  · rw [label_of_le s (by omega)]
    exact h

end RustLua.Lua
