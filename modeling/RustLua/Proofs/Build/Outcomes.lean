import RustLua.Build.Compile
import RustLua.Proofs.Lowering.Regular
import RustLua.Proofs.Lua.Success
import RustLua.Proofs.Parser.PlacedFiles

/-! # The outcomes of compiling to Lua

Behind a source that parses and lowers there are two checks that know nothing of each
other: the problems of the intermediate form, and the gaps of rendering. Lowered
programs are regular, so the first can only object to a format with the wrong number
of values, the second only to a break or continue outside of loops. -/
namespace RustLua

namespace Ir

/-- Some format in the program has not as many values as marks. -/
def Program.Misfilled (program : Program) : Prop :=
  ∃ inLoop fragments slots values,
    program.Holds inLoop (.format fragments slots values) ∧ values.length ≠ slots.length

/-- Some break or continue in the program is in no loop body of its nearest function. -/
def Program.Stray (program : Program) : Prop :=
  program.Holds false .breakLoop ∨ program.Holds false .continueLoop

theorem Program.not_misfilled_iff {program : Program} :
    ¬program.Misfilled ↔ ∀ i ∈ program.items, i.Filled := by
  constructor
  · intro h i hi b c fragments slots values ho
    obtain ⟨c', ho'⟩ := ho.anywhere false
    by_cases hl : values.length = slots.length
    · exact hl
    · exact absurd ⟨c', fragments, slots, values, ⟨i, hi, ho'⟩, hl⟩ h
  · rintro h ⟨b, fragments, slots, values, ⟨i, hi, ho⟩, hl⟩
    exact hl (h i hi _ _ _ _ _ ho)

theorem Program.not_stray_iff {program : Program} :
    ¬program.Stray ↔ ∀ i ∈ program.items, i.Settled false := by
  constructor
  · intro h i hi x ho
    cases x with
    | breakLoop => exact absurd (.inl ⟨i, hi, ho⟩) h
    | continueLoop => exact absurd (.inr ⟨i, hi, ho⟩) h
    | _ => rfl
  · rintro h (⟨i, hi, ho⟩ | ⟨i, hi, ho⟩)
    · cases h i hi _ ho
    · cases h i hi _ ho

theorem Program.Regular.problems_nil_iff {program : Program} (h : program.Regular) :
    program.problems = [] ↔ ¬program.Misfilled := by
  rw [Program.not_misfilled_iff, h.problems_eq_nil_iff]

end Ir

theorem Lua.generate_ok_iff {s : Lua.Settings} {program : Ir.Program} (h : program.Regular)
    (hf : ¬program.Misfilled) :
    (∃ text, Lua.generate s (some program) = .ok text) ↔ ¬program.Stray := by
  rw [Ir.Program.not_misfilled_iff] at hf
  have hitem : ∀ i ∈ program.items, i.Accepted (.statement false) ↔ i.Settled false :=
    fun i hi => Ir.Item.Regular.accepted_iff_settled (h i hi) (hf i hi) (.inr rfl)
  rw [Ir.Program.not_stray_iff]
  constructor
  · rintro ⟨text, ht⟩ i hi
    obtain ⟨pieces, hp, _⟩ := map_eq_ok.mp ht
    refine (hitem i hi).mp fun v y g hr hg => ?_
    obtain ⟨p, hp, _⟩ := carries_renderProgram hp ⟨i, hi, hr⟩
    exact hg.not_gives hp
  · intro hs
    cases hp : renderProgram s program with
    | ok pieces => exact ⟨_, map_eq_ok.mpr ⟨pieces, hp, rfl⟩⟩
    | error g =>
      obtain ⟨u, x, ⟨i, hi, hr⟩, hg⟩ := renderProgram_eq_error hp
      exact absurd hg ((hitem i hi).mpr (hs i hi) u x g hr)

namespace Build

variable {config : Config} {source : Bytes} {file : Tree.File} {program : Ir.Program}

/-- Every program that comes out of a source is regular. -/
theorem regular_of_lowerFile (hp : Parser.parseFile source = .ok file)
    (hl : Lowering.lowerFile file = .ok program) : program.Regular := by
  obtain ⟨tokens, ht, hf⟩ := Parser.parseFile_genuine hp
  exact Lowering.lowerFile_regular (Token.tokenize_segment ht) hf hl

/-- What is left of compiling once there is a program. -/
theorem compile_lua_of_program (hp : Parser.parseFile source = .ok file)
    (hl : Lowering.lowerFile file = .ok program) :
    compile config .lua source = match program.problems with
      | [] => ((Lua.generate (.ofNames config.globalTable config.continueLabel)
          (some program)).mapError .gap).mapError (.rendering .lua)
      | first :: others => .error (.invalid first others) := by
  have hcheck : check source = match program.problems with
      | [] => .ok ⟨file, program⟩
      | first :: others => .error (.invalid first others) := by
    unfold check
    rw [hp]
    change ((Lowering.lowerFile file).mapError CompileError.rejected >>= _) = _
    rw [hl]
    rfl
  unfold compile
  rw [hcheck]
  cases program.problems <;> rfl

/-- A text comes from a program without problems. -/
theorem program_of_compile_lua {text : Bytes} (h : compile config .lua source = .ok text) :
    ∃ file program, Parser.parseFile source = .ok file ∧
      Lowering.lowerFile file = .ok program ∧ program.problems = [] ∧
      Lua.generate (.ofNames config.globalTable config.continueLabel) (some program) =
        .ok text := by
  obtain ⟨checked, hc, _⟩ := bind_eq_ok.mp h
  obtain ⟨file, hp, hc⟩ := bind_eq_ok.mp hc
  obtain ⟨program, hl, _⟩ := bind_eq_ok.mp hc
  rw [mapError_eq_ok] at hp hl
  rw [compile_lua_of_program hp hl] at h
  cases hproblems : program.problems with
  | cons first others => simp [hproblems] at h
  | nil =>
    simp only [hproblems, mapError_eq_ok] at h
    exact ⟨file, program, hp, hl, hproblems, h⟩

/-- Compiling to Lua has exactly three outcomes behind a program, which is always
regular: problems exactly if a format is misfilled; else a gap exactly if a jump is
stray; else a text. -/
theorem compile_lua_outcome (hp : Parser.parseFile source = .ok file)
    (hl : Lowering.lowerFile file = .ok program) :
    program.Regular ∧
    ((∃ first others, compile config .lua source = .error (.invalid first others)) ↔
      program.Misfilled) ∧
    ((∃ gap, compile config .lua source = .error (.rendering .lua (.gap gap))) ↔
      ¬program.Misfilled ∧ program.Stray) ∧
    ((∃ text, compile config .lua source = .ok text) ↔
      ¬program.Misfilled ∧ ¬program.Stray) := by
  have hr := regular_of_lowerFile hp hl
  refine ⟨hr, ?_⟩
  rw [compile_lua_of_program hp hl]
  cases hproblems : program.problems with
  | cons first others =>
    have hm : program.Misfilled := by
      by_cases hm : program.Misfilled
      · exact hm
      · rw [hr.problems_nil_iff.mpr hm] at hproblems
        cases hproblems
    simp [hm]
  | nil =>
    have hm : ¬program.Misfilled := hr.problems_nil_iff.mp hproblems
    have hg := Lua.generate_ok_iff (s := .ofNames config.globalTable config.continueLabel) hr hm
    cases hgen : Lua.generate (.ofNames config.globalTable config.continueLabel)
        (some program) with
    | ok text =>
      have hs : ¬program.Stray := hg.mp ⟨text, hgen⟩
      simp [mapError_ok, hm, hs]
    | error gap =>
      have hs : program.Stray := by
        by_cases hs : program.Stray
        · exact hs
        · obtain ⟨text, ht⟩ := hg.mpr hs
          rw [hgen] at ht
          cases ht
      simp [mapError_error, hm, hs]

/-- The inner loop belongs to the closure, so the continue is that of the outer one. -/
theorem compile_lua_outcome_closure_in_loop :
    compile {} .lua "fn f() \x7b loop \x7b let g = || \x7b loop \x7b break; \x7d \x7d; continue; \x7d \x7d" =
        .ok ("function f()while true do local g = function()while true do break; ::__continue__:: " ++
          "end;end;goto __continue__; ::__continue__:: end;end;") ∧
    ∃ file program,
      Parser.parseFile "fn f() \x7b loop \x7b let g = || \x7b loop \x7b break; \x7d \x7d; continue; \x7d \x7d" =
        .ok file ∧
      Lowering.lowerFile file = .ok program ∧
      program.Regular ∧ ¬program.Misfilled ∧ ¬program.Stray := by
  have ht : compile {} .lua "fn f() \x7b loop \x7b let g = || \x7b loop \x7b break; \x7d \x7d; continue; \x7d \x7d" =
      .ok ("function f()while true do local g = function()while true do break; ::__continue__:: " ++
        "end;end;goto __continue__; ::__continue__:: end;end;") :=
    ok_of_toOption (by decide +kernel)
  obtain ⟨file, program, hp, hl, _⟩ := program_of_compile_lua ht
  have h := @compile_lua_outcome {} _ _ _ hp hl
  exact ⟨ht, file, program, hp, hl, h.1, h.2.2.2.mp ⟨_, ht⟩⟩

end Build
end RustLua
