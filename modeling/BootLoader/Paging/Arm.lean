import BootLoader.Paging.Entry
import BootLoader.Paging.Permissions

/-!
# AArch64 descriptors

Bit 0 of a descriptor is its valid bit and bit 1 its type: at the levels above the last, the type is
set in a pointer at a table and clear in a block; at the last level it is set in a page, and the
clear form is reserved. The output address of a leaf ends at bit 47 and starts at the size of its
block. Fields for the memory type, the rights, sharing and the access state fill the low bits, and
two execute-never bits sit above the address.
-/

namespace BootLoader.Paging.Arm

/-- The memory attribute index of normal memory. -/
def normalIndex : Nat := 0

/-- The memory attribute index of device memory. -/
def deviceIndex : Nat := 1

/-- The number that the bits below the top of every output address stand for. -/
def outputLimit : Nat := 0x1000000000000

/-- The size of the block or page that a leaf at `level` maps, for the levels that hold leaves. -/
def blockSize? : Nat → Option Nat
  | 0 => some 0x40000000
  | 1 => some 0x200000
  | 2 => some 0x1000
  | _ => none

/-- The granule of the output address of a leaf at `level`; levels that hold no leaves count as
holding pages. -/
def blockSize (level : Nat) : Nat := (blockSize? level).getD pageSize

/-- The bits of `n` in an output address field whose granule is `size`. -/
def outputBits (size n : Nat) : Nat := n % outputLimit / size * size

/-- The mask of the output address of a leaf at `level`. -/
def outputMask? (level : Nat) : Option UInt64 :=
  (blockSize? level).map fun size => UInt64.ofNat (outputBits size (outputLimit - 1))

/-- The fields of a leaf descriptor beside its output address. -/
structure Fields where
  /-- bit 1: a page, not a block -/
  page : Bool
  /-- bits 2 to 4: the memory attribute index -/
  attrIndex : Nat
  /-- bit 6: user code has access -/
  userAccess : Bool
  /-- bit 7: writing is not allowed -/
  readOnly : Bool
  /-- bits 8 and 9: shared by the inner domain -/
  innerShareable : Bool
  /-- bit 10: the access flag -/
  accessed : Bool
  /-- bit 11: not global -/
  notGlobal : Bool
  /-- bit 53: the kernel never executes this -/
  privilegedNever : Bool
  /-- bit 54: user code never executes this -/
  userNever : Bool
  deriving DecidableEq, Repr

namespace Fields

/-- The number that the fields and the valid bit stand for. -/
def bits (f : Fields) : Nat :=
  1 + 2 * f.page.toNat + 4 * f.attrIndex + 0x40 * f.userAccess.toNat + 0x80 * f.readOnly.toNat +
    0x300 * f.innerShareable.toNat + 0x400 * f.accessed.toNat + 0x800 * f.notGlobal.toNat +
    0x20000000000000 * f.privilegedNever.toNat + 0x40000000000000 * f.userNever.toNat

/-- The fields of a leaf of normal memory with the given rights. User code executes only what the
kernel may execute and user code may access. -/
def normal (lastLevel : Bool) (p : Permissions) : Fields where
  page := lastLevel
  attrIndex := normalIndex
  userAccess := p.user
  readOnly := !p.write
  innerShareable := true
  accessed := p.accessed
  notGlobal := !p.global
  privilegedNever := !p.execute
  userNever := !(p.execute && p.user)

/-- The fields of a leaf of device memory, which is never executed whatever the rights say. -/
def device (lastLevel : Bool) (p : Permissions) : Fields where
  page := lastLevel
  attrIndex := deviceIndex
  userAccess := p.user
  readOnly := !p.write
  innerShareable := false
  accessed := p.accessed
  notGlobal := !p.global
  privilegedNever := true
  userNever := true

/-- The fields of a leaf of the given kind of memory. -/
def of : Memory → Bool → Permissions → Fields
  | .normal => normal
  | .device => device

end Fields

/-- The leaf descriptor at `level` for `pa` with the given fields. -/
def encode (pa : PhysAddr) (level : Nat) (fields : Fields) : UInt64 :=
  UInt64.ofNat (outputBits (blockSize level) pa.toNat + fields.bits)

/-- Whether the output address of a leaf at `level` keeps all the low bits of `pa`. -/
def isEncodable (pa : PhysAddr) (level : Nat) : Bool := pa.toNat % blockSize level == 0

/-- A pointer at the table at `child`. -/
def pointer (child : PhysAddr) : UInt64 := UInt64.ofNat (outputBits pageSize child.toNat + 3)

/-- What a descriptor at `level` says. -/
def decode (raw : UInt64) (level : Nat) (lastLevel : Bool) : Entry :=
  let n := raw.toNat
  if n % 2 == 0 then .invalid
  else match blockSize? level with
    | none => .invalid
    | some size =>
      let base := outputBits size n
      let leaf := .leaf (.ofNat base) (UInt64.ofNat (n - base))
      match lastLevel, n / 2 % 2 == 1 with
      | false, true => .next (.ofNat (outputBits pageSize n))
      | false, false => leaf
      | true, true => leaf
      | true, false => .invalid

/-- The rights that a leaf descriptor grants. Reading is always granted, and no dirty state is kept
beside the right to write. -/
def permissions (raw : UInt64) : Permissions :=
  let n := raw.toNat
  let isSet (position : Nat) := n / position % 2 == 1
  { read := true
    write := !isSet 0x80
    execute := !isSet 0x20000000000000
    user := isSet 0x40
    global := !isSet 0x800
    accessed := isSet 0x400
    dirty := !isSet 0x80 }

/-- The root register for a table at `root`: its output address alone. -/
def rootRegister (root : PhysAddr) : UInt64 := UInt64.ofNat (outputBits pageSize root.toNat)

end BootLoader.Paging.Arm
