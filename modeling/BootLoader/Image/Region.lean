import BootLoader.BootError

/-!
# Image regions

A region says where an image lies in memory, where it is linked, and where it is entered. Ranges are
half open. The virtual end and the distance between the two ranges are derived, with the arithmetic
of words, when a region is placed; `Region.check` accepts a region exactly when nothing wrapped and
all six fields agree.
-/

namespace BootLoader

/-- The physical and the virtual range of one image, and its entry point. -/
structure Region where
  /-- first physical byte -/
  physStart : PhysAddr
  /-- one past the last physical byte -/
  physEnd : PhysAddr
  /-- first virtual byte -/
  virtStart : VirtAddr
  /-- one past the last virtual byte -/
  virtEnd : VirtAddr
  /-- virtual entry point -/
  virtEntry : VirtAddr
  /-- what added to a physical address of the image gives its virtual one, wrapping -/
  offset : UInt64
  deriving DecidableEq, Repr, Inhabited

namespace Region

/-- The region at the given physical range, linked at `virtStart` and entered at `virtEntry`. -/
def place (physStart physEnd virtStart virtEntry : UInt64) : Region where
  physStart := ⟨physStart⟩
  physEnd := ⟨physEnd⟩
  virtStart := ⟨virtStart⟩
  virtEnd := ⟨virtStart + (physEnd - physStart)⟩
  virtEntry := ⟨virtEntry⟩
  offset := virtStart - physStart

/-- The region that is linked where it lies, and entered at its start. -/
def identity (start limit : UInt64) : Region := place start limit start start

/-- The length of the region in bytes. -/
def size (r : Region) : UInt64 := r.physEnd.raw - r.physStart.raw

/-- Whether the region has no bytes. -/
def isEmpty (r : Region) : Bool := r.size == 0

/-- The virtual address of the byte at the physical address `pa` of the region. -/
def toVirt (r : Region) (pa : PhysAddr) : VirtAddr := ⟨pa.raw + r.offset⟩

/-- Whether both ranges run forwards and have the same non-zero length, the offset is the distance
between them, and the entry point is in the virtual range. -/
def isConsistent (r : Region) : Bool :=
  r.physStart.raw ≤ r.physEnd.raw && r.virtStart.raw ≤ r.virtEnd.raw &&
  r.size == r.virtEnd.raw - r.virtStart.raw &&
  r.offset == r.virtStart.raw - r.physStart.raw &&
  r.virtStart.raw ≤ r.virtEntry.raw && r.virtEntry.raw < r.virtEnd.raw &&
  !r.isEmpty

/-- Refuses a region that contradicts itself. -/
def check (r : Region) : Except BootError Unit :=
  if r.isConsistent then .ok () else .error (.invalidRegion r.virtStart r.physStart)

end Region

/-- The images that a boot needs, and the number of user images that were unpacked. -/
structure LoadedImages where
  /-- the kernel -/
  kernel : Region
  /-- the first user program -/
  user : Region
  /-- how many user images were unpacked -/
  numApps : Nat
  deriving DecidableEq, Repr, Inhabited

namespace LoadedImages

/-- The number of user images that the kernel is handed. -/
def expectedApps : Nat := 1

/-- Refuses another number of user images than one, then an inconsistent kernel region, then an
inconsistent user region. -/
def check (images : LoadedImages) : Except BootError Unit := do
  unless images.numApps == expectedApps do throw (.noUserImage images.numApps)
  images.kernel.check
  images.user.check

end LoadedImages

end BootLoader
