import RustLua.Build.Target
import RustLua.Ir.Problem
import RustLua.Lowering.Basic
import RustLua.Parser.File

/-!
Compilation of one source: parse, lower, check the result for problems, render.
Each stage runs only if the one before it succeeded.
-/

namespace RustLua.Build

inductive CompileError where
  | unknownTarget (name : Bytes)
  | parse (failure : Parser.Failure)
  | rejected (r : Lowering.Rejection)
  /-- The first problem and the others. -/
  | invalid (first : Ir.Problem) (others : List Ir.Problem)
  | rendering (target : Target) (e : RenderError)

def CompileError.message : CompileError → Bytes
  | .unknownTarget name => "unknown target: " ++ name
  | .parse failure => failure.message
  | .rejected r => "translate: " ++ r.message
  | .invalid first others =>
    "validate: " ++ Ir.problemsMessage (first.text :: others.map Ir.Problem.text)
  | .rendering target e => "generate " ++ target.name ++ ": " ++ e.message

/-- A source that passed every stage before rendering. -/
structure Checked where
  file : Tree.File
  program : Ir.Program

/-- Everything but rendering. -/
def check (source : Bytes) : Except CompileError Checked := do
  let file ← (Parser.parseFile source).mapError .parse
  let program ← (Lowering.lowerFile file).mapError .rejected
  match program.problems with
  | [] => return ⟨file, program⟩
  | first :: others => throw (.invalid first others)

/-- The text of a source for a target. -/
def compile (config : Config) (target : Target) (source : Bytes) : Except CompileError Bytes := do
  let checked ← check source
  (target.render config (some checked.file) (some checked.program)).mapError (.rendering target)

/-- The same for the name of a target, which is looked at first. -/
def compileNamed (config : Config) (name source : Bytes) : Except CompileError Bytes :=
  match Target.ofName? name with
  | some target => compile config target source
  | none => .error (.unknownTarget name)

end RustLua.Build
