import BootLoader.Failure
import BootLoader.Paging.Arm
import BootLoader.Paging.RiscV

/-!
# Page table formats

The four table formats that the loader can build. Levels are counted from the root: level zero is
the root table, and the last level maps pages. The mapping rules and the table walk use a format
only through the functions of this module, so they are the same for all four.
-/

namespace BootLoader.Paging

/-- The page table formats. -/
inductive Format where
  /-- two levels, blocks of 4 MiB at the root -/
  | sv32
  /-- three levels, blocks of 1 GiB at the root -/
  | sv39
  /-- four levels, blocks of 512 GiB at the root -/
  | sv48
  /-- three levels over 4 KiB pages, blocks of 1 GiB at the root, one root for each half -/
  | aarch64
  deriving DecidableEq, Repr

namespace Format

/-- The name of a format in diagnostics. -/
def name : Format → String
  | sv32 => "Sv32"
  | sv39 => "Sv39"
  | sv48 => "Sv48"
  | aarch64 => "AArch64/39"

/-- The number of levels. -/
def levels : Format → Nat
  | sv32 => 2
  | sv39 => 3
  | sv48 => 4
  | aarch64 => 3

/-- The number of bits of a virtual address that select an entry at one level. -/
def indexBits : Format → Nat
  | sv32 => 10
  | _ => 9

/-- The width of the entries. -/
def width : Format → EntryWidth
  | sv32 => .narrow
  | _ => .wide

/-- Whether the self-map and the kernel window live under separate roots. -/
def splitRoots : Format → Bool
  | aarch64 => true
  | _ => false

/-- The number of entries of a table. -/
def entries (F : Format) : Nat := F.width.entries

/-- The number of address bits below an entry at `level`. -/
def levelShift (F : Format) (level : Nat) : Nat :=
  pageShift + F.indexBits * (F.levels - 1 - level)

/-- The number of bytes that an entry at `level` covers. -/
def levelSize (F : Format) (level : Nat) : Nat := 1 <<< F.levelShift level

/-- The number of bytes that a root table covers. -/
def coverage (F : Format) : Nat := F.levelSize 0 * F.entries

/-- The entry of a table at `level` that `va` selects. -/
def index (F : Format) (va : VirtAddr) (level : Nat) : Nat :=
  va.toNat / F.levelSize level % (1 <<< F.indexBits)

/-- The distance of `va` from the start of the block that an entry at `level` covers. -/
def blockOffset (F : Format) (va : VirtAddr) (level : Nat) : Nat := va.toNat % F.levelSize level

/-- `levelShift` at a level that the format has; another level is a fault. -/
def shiftAt (F : Format) (level : Nat) : Except Fault Nat :=
  if level < F.levels then .ok (F.levelShift level) else .error .overflow

/-- `index` at a level that the format has; another level is a fault. -/
def indexAt (F : Format) (va : VirtAddr) (level : Nat) : Except Fault Nat :=
  if level < F.levels then .ok (F.index va level) else .error .overflow

/-! ## Encoding -/

/-- The leaf at `level` that maps the block at `base` as the given kind of memory. The RISC-V
formats have no field for the kind of memory, and use one leaf for both. -/
def leafWord (F : Format) (memory : Memory) (base : PhysAddr) (level : Nat) : UInt64 :=
  match F with
  | aarch64 =>
    Arm.encode base level (.of memory (level == aarch64.levels - 1) .profile)
  | _ => RiscV.leaf base

/-- Whether the leaf at `level` for `base` keeps all the low bits of `base`. -/
def isLeafBase (F : Format) (base : PhysAddr) (level : Nat) : Bool :=
  match F with
  | aarch64 => Arm.isEncodable base level
  | _ => level < F.levels && base.isAligned (F.levelShift level)

/-- The leaf at `level` for `base`; it is a fault to ask for one that would drop low bits. -/
def leaf (F : Format) (memory : Memory) (base : PhysAddr) (level : Nat) : Except Fault UInt64 :=
  if F.isLeafBase base level then .ok (F.leafWord memory base level) else .error .misaligned

/-- The pointer at the table at `child`. -/
def pointerWord (F : Format) (child : PhysAddr) : UInt64 :=
  match F with
  | aarch64 => Arm.pointer child
  | _ => RiscV.pointer child

/-- The pointer at the table at `child`; it is a fault to ask for one at no page. -/
def pointer (F : Format) (child : PhysAddr) : Except Fault UInt64 :=
  if child.isPageAligned then .ok (F.pointerWord child) else .error .misaligned

/-- The value of the root register for a table at `root`. -/
def rootRegister (F : Format) (root : PhysAddr) : UInt64 :=
  match F with
  | sv32 => RiscV.rootRegister 0x80000000 root
  | sv39 => RiscV.rootRegister 0x8000000000000000 root
  | sv48 => RiscV.rootRegister 0x9000000000000000 root
  | aarch64 => Arm.rootRegister root

/-! ## Decoding -/

/-- What an entry at `level` says. -/
def decode (F : Format) (raw : UInt64) (level : Nat) : Entry :=
  match F with
  | sv32 => RiscV.decode 22 raw
  | sv39 => RiscV.decode 44 raw
  | sv48 => RiscV.decode 44 raw
  | aarch64 => Arm.decode raw level (level == aarch64.levels - 1)

/-- An entry at `level` as it stands in a table listing. -/
def inspectEntry (F : Format) (raw : UInt64) (level : Nat) : String :=
  match F with
  | aarch64 => (aarch64.decode raw level).inspect
  | _ => RiscV.inspect raw

/-! ## Bounds -/

/-- A table has one entry for each value of its index bits. -/
theorem entries_eq_shiftLeft (F : Format) : F.entries = 1 <<< F.indexBits := by
  cases F <;> rfl

/-- The entry that an address selects is in the table. -/
theorem index_lt_entries (F : Format) (va : VirtAddr) (level : Nat) :
    F.index va level < F.entries := by
  rw [entries_eq_shiftLeft]
  exact Nat.mod_lt _ (by cases F <;> decide)

end Format

end BootLoader.Paging
