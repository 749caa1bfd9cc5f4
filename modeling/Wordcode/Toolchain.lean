import Wordcode.Compile.Lowering
import Wordcode.Decompile.Replay
import Wordcode.Layout
import Wordcode.Opcode.Builtin
import Wordcode.Settings

namespace Wordcode

structure Toolchain where
  table : Table
  settings : Settings

namespace Toolchain

def builtin : Toolchain :=
  ⟨.builtin, {}⟩

def read (tools : Toolchain) (text : List Char) : Document :=
  Document.read tools.table text

def compile (tools : Toolchain) (text : List Char) : Except CompileError Bytecode :=
  (tools.read text).compile tools.table tools.settings.memoryOpcode

/-- Lays a text out, whether or not the settings ask for it in decompiled text. -/
def format (tools : Toolchain) (text : List Char) : List Char :=
  Layout.pretty tools.settings.indent text

def decompile (tools : Toolchain) (code : Bytecode) : Except DecompileError String :=
  match code.decompile tools.table tools.settings.memoryOpcode with
  | .error err => .error err
  | .ok text =>
    if tools.settings.pretty then .ok (String.ofList (tools.format text.toList)) else .ok text

end Toolchain

end Wordcode
