import RustLua.Main
import RustLua.Proofs.Build.Comments
import RustLua.Proofs.Lua.LoopLabels
import RustLua.Proofs.Lowering.Workers
import RustLua.Proofs.Parser.Accepted
import RustLua.Proofs.Ir.Recovery
import RustLua.Proofs.Lint.Coverage
import RustLua.Proofs.Parser.DelimiterFiles
import RustLua.Proofs.Lowering.Assignments
import RustLua.Proofs.Build.Inputs
import RustLua.Proofs.Lua.Formats
import RustLua.Proofs.Lowering.Templates
import RustLua.Proofs.Lowering.Ranges
import RustLua.Proofs.Lowering.Returns
import RustLua.Proofs.Lowering.Externs
import RustLua.Proofs.Token.Strings
import RustLua.Proofs.Lowering.Rejections
import RustLua.Proofs.Lint.Divisions
import RustLua.Proofs.Lint.Unused
import RustLua.Proofs.Lua.Concatenation
import RustLua.Proofs.Build.Outputs
import RustLua.Proofs.Parser.Texts
