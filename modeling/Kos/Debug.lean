import Kos.Util.Format

/-!
# Debug messages

`dbg_printf` and `dbg_vprintf` of `kernel/debug.c` format a message into a static buffer of 256 bytes, whether it is shown or not. The
messages here are those of `vm_map_string` (`kernel/mm/util.c`) and `sys_open` (`kernel/fs/fs.c`), in which a string of a process is
written.
-/

namespace Kos

/-- A string literal. -/
def literal (s : String) : CString :=
  s.toList.map fun c => if h : c.toUInt8 ≠ 0 then ⟨c.toUInt8, h⟩ else CChar.space

/-- A call of `dbg_printf` or `dbg_vprintf`. -/
structure DbgCall where
  fmt : CString
  args : List (BitVec 32)

/-- What is written into the buffer, with the NUL. -/
def DbgCall.written (str : BitVec 32 → CString) (call : DbgCall) : Option (List UInt8) :=
  (strafmt str call.fmt call.args).map fun (text, _) => text ++ [0]

/-- The size of `buffer`. -/
def dbgBufferSize : Nat := 256

/-- The variables of `vm_map_string`; `str` is where the string is mapped, and `length` tells whether the pointer is not null. -/
structure MapString where
  vaddr : BitVec 32
  infoAddr : BitVec 32
  info : BitVec 32
  infoPtr : BitVec 32
  infoLen : BitVec 32
  str : BitVec 32
  length : Bool

/-- The messages of `vm_map_string`. -/
def vmMapStringMessages (m : MapString) : List DbgCall :=
  [⟨literal "vm_map_string: \n", []⟩,
    ⟨literal "  vaddr = %p\n", [m.vaddr]⟩,
    ⟨literal "  info_addr = %p\n", [m.infoAddr]⟩,
    ⟨literal "  info = %p\n", [m.info]⟩,
    ⟨literal "  info->ptr = %p\n", [m.infoPtr]⟩,
    ⟨literal "  info->len = %d\n", [m.infoLen]⟩,
    ⟨literal "  str = %p - '%s'\n", [m.str, m.str]⟩] ++
  if m.length then [⟨literal "  assigning length + 1\n", []⟩] else []

/-- The messages of `sys_open` itself and of `vm_map_string` below it; `result` is what it returns. -/
def sysOpenMessages (fname flags : BitVec 32) (m : MapString) (result : BitVec 32) : List DbgCall :=
  ⟨literal "sys_open(%p, %d) \n", [fname, flags]⟩ ::
    (vmMapStringMessages m ++ [⟨literal "sys_open(\"%s\", %d)\n", [m.str, flags]⟩, ⟨literal "sys_open: result is %d\n", [result]⟩])

end Kos
