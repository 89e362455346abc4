import BootLoader.Paging.Entry
import BootLoader.Paging.Permissions

/-!
# RISC-V entries

The three RISC-V formats share one layout. From the low end: a valid bit, the rights to read, write
and execute, the user, global, accessed and dirty bits, two bits for software, and from bit 10 on
the page number, which is the physical address without its page offset. An entry that grants no
right to read, write or execute points at the next table. The formats differ in the width of the
page number that hardware reads, and in the mode that the root register selects.
-/

namespace BootLoader.Paging.RiscV

/-- The number that the low bits of an entry stand for, apart from the page number. -/
def flagCount : Nat := 1024

/-- The low bits of a leaf with the given rights. -/
def leafFlags (p : Permissions) : Nat :=
  1 + 2 * p.read.toNat + 4 * p.write.toNat + 8 * p.execute.toNat + 16 * p.user.toNat +
    32 * p.global.toNat + 64 * p.accessed.toNat + 128 * p.dirty.toNat

/-- The entry for the page at `pa` with the given low bits. -/
def encode (pa : PhysAddr) (flags : Nat) : UInt64 :=
  UInt64.ofNat (pa.toNat / pageSize * flagCount + flags)

/-- A leaf at `base` with the rights of the loader. -/
def leaf (base : PhysAddr) : UInt64 := encode base (leafFlags .profile)

/-- A pointer at the table at `child`. -/
def pointer (child : PhysAddr) : UInt64 := encode child 1

/-- What an entry says when page numbers have `pageNumberBits` bits. -/
def decode (pageNumberBits : Nat) (raw : UInt64) : Entry :=
  let n := raw.toNat
  if n % 2 == 0 then .invalid
  else
    let base := .ofNat (n / flagCount % (1 <<< pageNumberBits) * pageSize)
    if n / 2 % 8 == 0 then .next base else .leaf base (UInt64.ofNat (n % flagCount))

/-- The root register for a table at `root`, with the bits that select the mode set. -/
def rootRegister (mode : UInt64) (root : PhysAddr) : UInt64 := mode ||| (root.raw >>> 12)

/-- An entry field by field, with the address that its whole page number stands for. -/
def inspect (raw : UInt64) : String :=
  let n := raw.toNat
  let flag (position : Nat) := Text.bit (n / position % 2 == 1)
  s!"PPN:{Text.hex (n / flagCount)} RSW:{n / 256 % 4} D:{flag 128} A:{flag 64} G:{flag 32} " ++
    s!"U:{flag 16} XWR:{Text.binaryPadded 3 (n / 2 % 8)} V:{flag 1} -> " ++
    Text.hexPadded 16 (n / flagCount * pageSize % wordCount)

end BootLoader.Paging.RiscV
