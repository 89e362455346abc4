import BootLoader.Address

/-!
# Processor operations

The privileged operations that a boot is made of, as each core performs them on its own behalf. What
instructions they are depends on the processor, and is the business of
`BootLoader.Processor.Native`; the order in which a core performs them is the same everywhere.
-/

namespace BootLoader.Processor

/-- The addresses of the root tables that a core takes into use. -/
structure RootPair where
  /-- the root that maps the loader to itself -/
  selfMap : PhysAddr
  /-- the root that maps the kernel -/
  kernelMap : PhysAddr
  deriving DecidableEq, Repr

/-- One table that is the root of both maps. -/
def RootPair.shared (root : PhysAddr) : RootPair := ⟨root, root⟩

/-- The number of register arguments of the kernel's entry. -/
def entryArguments : Nat := 8

/-- The register arguments of the kernel's entry, one word each. -/
abbrev EntryRegisters := Vector UInt64 entryArguments

/-- A privileged operation. -/
inductive Operation where
  /-- all earlier memory writes become visible to the table walk -/
  | fenceData
  /-- instructions fetched under an earlier map are dropped -/
  | fenceInstructions
  /-- the root tables are taken into use, and paging is on from here -/
  | publish (root : RootPair)
  /-- the code at `entry` is called -/
  | jump (entry : VirtAddr) (registers : EntryRegisters)
  /-- the core is waiting in a loop -/
  | spinHint
  deriving DecidableEq, Repr

end BootLoader.Processor
