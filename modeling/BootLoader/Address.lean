import BootLoader.Text.Hex

/-!
# Addresses

A physical and a virtual address are both 64-bit words, kept apart by their type. Alignment is given
as a number of address bits, since every granule of the loader is a power of two; the operations are
defined by their effect on the natural number that the word stands for.
-/

namespace BootLoader

/-- The two address spaces that the loader works in. -/
inductive Space where
  /-- addresses of memory and of device registers -/
  | physical
  /-- addresses that a page table maps -/
  | virtual
  deriving DecidableEq, Repr

/-- A 64-bit address in the address space `s`. -/
structure Address (s : Space) where
  /-- The address as a word. -/
  raw : UInt64
  deriving DecidableEq, Repr, Inhabited

/-- An address of memory or of a device register. -/
abbrev PhysAddr := Address .physical

/-- An address that a page table maps. -/
abbrev VirtAddr := Address .virtual

/-- The number of different words, which no sum of addresses may reach. -/
def wordCount : Nat := 0x10000000000000000

/-- The size in bytes of a table frame, and of the smallest mapping that any format has. -/
def pageSize : Nat := 4096

/-- The number of address bits below a page. -/
def pageShift : Nat := 12

/-- The alignment `2 ^ bits`; 64 bits and more all stand for the whole address space. -/
def granuleOf (bits : Nat) : Nat := 1 <<< min bits 64

namespace Address

variable {s : Space}

/-- The address as a natural number. -/
def toNat (a : Address s) : Nat := a.raw.toNat

/-- The address that a natural number stands for; bits above the word are dropped. -/
def ofNat (n : Nat) : Address s := ⟨UInt64.ofNat n⟩

/-- Whether this is the address zero. -/
def isNull (a : Address s) : Bool := a.raw == 0

/-- Whether the address is a multiple of `2 ^ bits`. -/
def isAligned (a : Address s) (bits : Nat) : Bool := a.toNat % granuleOf bits == 0

/-- The largest multiple of `2 ^ bits` at or below the address. -/
def alignDown (a : Address s) (bits : Nat) : Address s :=
  ofNat (a.toNat / granuleOf bits * granuleOf bits)

/-- The smallest multiple of `2 ^ bits` at or above the address, or the largest multiple in the
address space when there is none above. -/
def alignUp (a : Address s) (bits : Nat) : Address s :=
  let raised := a.toNat + (granuleOf bits - 1)
  let top := if raised < wordCount then raised else wordCount - 1
  ofNat (top / granuleOf bits * granuleOf bits)

/-- Whether the address is at the start of a page. -/
def isPageAligned (a : Address s) : Bool := a.isAligned pageShift

/-- The address `distance` bytes further on, wrapping around at the end of the address space. -/
def offset (a : Address s) (distance : UInt64) : Address s := ⟨a.raw + distance⟩

/-- The order of two addresses as numbers. -/
def order (a b : Address s) : Ordering := compare a.toNat b.toNat

/-- The address as it stands in a message: all sixteen digits after `0x`. -/
def display (a : Address s) : String := Text.hexPadded 16 a.toNat

/-- The address with the name of its type, as it stands in diagnostics. -/
def inspect (a : Address s) : String :=
  let name := match s with
    | .physical => "PhysAddr"
    | .virtual => "VirtAddr"
  name ++ "(" ++ Text.hex a.toNat ++ ")"

end Address

/-- The virtual address with the same number as a physical one. -/
def Address.identityMapped (a : PhysAddr) : VirtAddr := ⟨a.raw⟩

end BootLoader
