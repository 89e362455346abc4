import BootLoader.BootError

/-!
# Mapping errors

Why a mapping cannot be planned. To the boot, a pointer that leaves the storage is an overlap like
any other entry in use.
-/

namespace BootLoader.Paging

/-- The causes that refuse a mapping. -/
inductive MapError where
  /-- no tier fits the bases of the range -/
  | misaligned (virt : VirtAddr) (phys : PhysAddr) (size : UInt64)
  /-- an entry that the mapping needs holds something else -/
  | overlap (virt : VirtAddr)
  /-- there are too few free frames for the child tables -/
  | storageExhausted
  /-- the range is empty, or leaves the address space -/
  | invalidRange (virt : VirtAddr) (phys : PhysAddr)
  /-- an entry points at a table outside the storage -/
  | foreignTable (virt : VirtAddr)
  deriving DecidableEq, Repr

namespace MapError

/-- The name of the cause. -/
def name : MapError → String
  | misaligned _ _ _ => "Misaligned"
  | overlap _ => "Overlap"
  | storageExhausted => "StorageExhausted"
  | invalidRange _ _ => "InvalidRange"
  | foreignTable _ => "ForeignTable"

/-- The cause as it is reported. -/
def message : MapError → String
  | misaligned virt phys size =>
    s!"region {virt.display} -> {phys.display} ({Text.hex size.toNat}) is misaligned for every tier"
  | overlap virt => s!"slot for {virt.display} is already mapped"
  | storageExhausted => "out of table frames"
  | invalidRange virt phys => s!"invalid range {virt.display} -> {phys.display}"
  | foreignTable virt => s!"table for {virt.display} is outside the storage"

/-- The boot condition that a mapping error amounts to. -/
def bootError : MapError → BootError
  | misaligned virt phys size => .misalignedRegion virt phys size
  | overlap virt => .regionOverlap virt
  | foreignTable virt => .regionOverlap virt
  | storageExhausted => .tableStorageExhausted
  | invalidRange virt phys => .invalidRegion virt phys

end MapError

end BootLoader.Paging
