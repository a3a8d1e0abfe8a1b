import Kos.Lib.Bytes

/-!
# The format of an initrd

`share/include/kos/initrd.h`: a header, and entries that name each other by their offsets from the beginning of the image.
-/

namespace Kos

/-- `ID_MAGIC0` to `ID_MAGIC2` and `ID_VERSION`: the bytes of the header. -/
def idHeader : List UInt8 := [107, 73, 68, 0]

/-- `ID_TYPE_FILE`. -/
abbrev idTypeFile : Nat := 0

/-- `ID_TYPE_DIR`. -/
abbrev idTypeDir : Nat := 1

/-- `struct id_entry`. -/
structure IdEntry where
  type : Nat
  name : Nat
  count : Nat
  content : Nat
  next : Nat
  deriving DecidableEq, Repr

/-- `sizeof(struct id_entry)`. -/
abbrev idEntrySize : Nat := 20

/-- The bytes of an entry. -/
def IdEntry.encode (e : IdEntry) : List UInt8 :=
  le32 e.type ++ (le32 e.name ++ (le32 e.count ++ (le32 e.content ++ le32 e.next)))

/-- The entry with these bytes. -/
def IdEntry.decode (bs : List UInt8) : IdEntry where
  type := ofLe32 bs
  name := ofLe32 (bs.drop 4)
  count := ofLe32 (bs.drop 8)
  content := ofLe32 (bs.drop 12)
  next := ofLe32 (bs.drop 16)

/-- `id_get`: the address that an offset means, or the null pointer. -/
def idGet (offset disk : Nat) : Nat := if offset = 0 then 0 else w32 (disk + offset)

end Kos
