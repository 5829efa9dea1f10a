import RustLua.Config.Basic
import RustLua.Ir.Dump
import RustLua.Lua.Render
import RustLua.Tree.Printer

/-! Targets: the forms in which a compiled source can be written. -/

namespace RustLua.Build

/-- Lua text, the intermediate form, the syntax tree. -/
inductive Target where
  | lua | ir | ast
deriving DecidableEq, Repr

inductive RenderError where
  | gap (g : Lua.Gap)
  | dump (e : Ir.DumpError)
  | noTree
deriving DecidableEq, Repr

def RenderError.message : RenderError → Bytes
  | .gap g => g.message
  | .dump e => e.message
  | .noTree => "ast backend: no syntax tree"

namespace Target

def all : List Target := [.lua, .ir, .ast]

def name : Target → String
  | .lua => "lua"
  | .ir => "ir"
  | .ast => "ast"

def ofName? (text : Bytes) : Option Target := all.find? fun t => Bytes.ofString t.name = text

/-- The extension of output files. -/
def extension (config : Config) : Target → Bytes
  | .lua => if config.outputExt.isEmpty then ".lua" else config.outputExt
  | .ir => ".ir.yaml"
  | .ast => ".ast.txt"

/-- The text of a source in one form, given its tree and its program. -/
def render (config : Config) (tree : Option Tree.File) (program : Option Ir.Program) :
    Target → Except RenderError Bytes
  | .lua =>
    let settings := Lua.Settings.ofNames config.globalTable config.continueLabel
    (Lua.generate settings program).mapError .gap
  | .ir => (Ir.dump program).mapError .dump
  | .ast =>
    match tree with
    | some file => .ok file.print
    | none => .error .noTree

end Target
end RustLua.Build
