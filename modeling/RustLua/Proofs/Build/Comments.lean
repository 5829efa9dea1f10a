import RustLua.Proofs.Build.Outcomes
import RustLua.Proofs.Lua.Comments

/-! # Comments in compiled text

With settings that pass their checks, the Lua text of a source opens a comment exactly
if a negative product is subtracted somewhere in its program. -/
namespace RustLua

namespace Ir

/-- A negative product is subtracted somewhere in the program. -/
def Program.Clashes (program : Program) : Prop :=
  ∃ inLoop lhs rhs, program.Holds inLoop (.binary .sub lhs rhs) ∧ rhs.isNegativeProduct = true

theorem Program.clashes_iff {program : Program} :
    program.Clashes ↔ ∃ i ∈ program.items, i.Clashes := by
  constructor
  · rintro ⟨c, lhs, rhs, ⟨i, hi, ho⟩, hn⟩
    exact ⟨i, hi, false, c, lhs, rhs, ho, hn⟩
  · rintro ⟨i, hi, b, c, lhs, rhs, ho, hn⟩
    obtain ⟨c', ho'⟩ := ho.anywhere false
    exact ⟨c', lhs, rhs, ⟨i, hi, ho'⟩, hn⟩

end Ir

theorem Lua.opensComment_generate {s : Lua.Settings} {program : Ir.Program} {text : Bytes}
    (hw : s.Words) (hr : program.Regular) (hf : ¬program.Misfilled)
    (h : Lua.generate s (some program) = .ok text) :
    Lua.opensComment text = true ↔ program.Clashes := by
  obtain ⟨pieces, hp, rfl⟩ := map_eq_ok.mp h
  have hreads := Lua.body_reads hw (Lua.body_renderBody s _ _ hp) hr
    (Ir.Program.not_misfilled_iff.mp hf)
  rw [Ir.Program.clashes_iff, Lua.opensComment_text hreads.clean, Option.isNone_iff_eq_none]
  refine ⟨fun hnone => ?_, hreads.meets⟩
  by_cases hc : ∃ i ∈ program.items, i.Clashes
  · exact hc
  · rw [hreads.passes hc] at hnone
    cases hnone

namespace Build

variable {config : Config} {source text : Bytes}

theorem isName_of_checkName {key : String} {value : Bytes} {u : Unit}
    (h : Config.checkName key value = .ok u) : Lua.isName value = true := by
  unfold Config.checkName at h
  split at h
  · assumption
  · cases h

theorem isEmpty_of_isName {name : Bytes} (h : Lua.isName name = true) : name.isEmpty = false := by
  cases name with
  | nil => cases h
  | cons b rest => rfl

theorem words_of_validate {level : Config.Level} (h : config.validate = .ok level) :
    (Lua.Settings.ofNames config.globalTable config.continueLabel).Words := by
  obtain ⟨_, hg, h⟩ := bind_eq_ok.mp h
  obtain ⟨_, hl, _⟩ := bind_eq_ok.mp h
  have hg' := isName_of_checkName hg
  have hl' := isName_of_checkName hl
  refine ⟨?_, fun depth => Lua.isWord_of_isName (Lua.isName_label ?_ depth)⟩
  · simpa [Lua.Settings.ofNames, isEmpty_of_isName hg'] using Lua.isWord_of_isName hg'
  · simpa [Lua.Settings.ofNames, isEmpty_of_isName hl'] using hl'

/-- Two minus signs meet outside of literals exactly if a product that starts with a
negative number is subtracted, at any depth of the program. -/
theorem compile_lua_opensComment_iff {level : Config.Level} (hc : config.validate = .ok level)
    (h : compile config .lua source = .ok text) :
    ∃ file program, Parser.parseFile source = .ok file ∧
      Lowering.lowerFile file = .ok program ∧
      (Lua.opensComment text = true ↔ program.Clashes) := by
  obtain ⟨file, program, hp, hl, hproblems, hgen⟩ := program_of_compile_lua h
  have hr := regular_of_lowerFile hp hl
  exact ⟨file, program, hp, hl, Lua.opensComment_generate (words_of_validate hc) hr
    (hr.problems_nil_iff.mp hproblems) hgen⟩

/-- The rest of the line, the end of the function included, is a comment. -/
theorem compile_lua_opens_comment :
    compile {} .lua "fn f(a: i64, b: i64) -> i64 \x7b a - -1 * b \x7d" =
      .ok "function f(a,b)return a--1*b;end;" ∧
    Lua.opensComment "function f(a,b)return a--1*b;end;" = true :=
  ⟨ok_of_toOption (by decide +kernel), by decide⟩

/-- A negative number alone gets parentheses, one that starts a product does not. -/
theorem compile_lua_opensComment_iff_product :
    ∃ file program, Parser.parseFile "fn f(a: i64, b: i64) -> i64 \x7b a - -1 * b \x7d" = .ok file ∧
      Lowering.lowerFile file = .ok program ∧ program.Clashes := by
  have ht : compile {} .lua "fn f(a: i64, b: i64) -> i64 \x7b a - -1 * b \x7d" =
      .ok "function f(a,b)return a--1*b;end;" := ok_of_toOption (by decide +kernel)
  obtain ⟨file, program, hp, hl, hiff⟩ := compile_lua_opensComment_iff rfl ht
  exact ⟨file, program, hp, hl, hiff.mp (by decide)⟩

end Build
end RustLua
