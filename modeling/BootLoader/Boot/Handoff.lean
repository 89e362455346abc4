import BootLoader.Boot.Activation
import BootLoader.Image.Region

/-!
# The handoff

The kernel finds everything in the registers that it is entered with: where the first user program
lies and how it is linked, where the device tree is, and which core this is. A loader that is built
for one core does not say which.
-/

namespace BootLoader.Boot

open Journal (Record)
open Processor (EntryRegisters Operation)

/-- Where a device tree lies. -/
structure TreeLocation where
  /-- its address -/
  phys : PhysAddr
  /-- its size in bytes -/
  size : UInt64
  deriving DecidableEq, Repr, Inhabited

/-- The location that says that there is no device tree. -/
def TreeLocation.none : TreeLocation := ⟨⟨0⟩, 0⟩

/-- What the kernel is handed. -/
structure Handoff where
  /-- the first user program -/
  user : Region
  /-- where the device tree is -/
  tree : TreeLocation
  /-- the core that enters the kernel -/
  core : CoreIdentity
  deriving DecidableEq, Repr

namespace Handoff

/-- The registers; `smp` tells a loader for several cores. They are those of a 64-bit machine, and each
value is handed over whole: that a 32-bit machine keeps only the lower halves is not modelled. -/
def registers (smp : Bool) (h : Handoff) : EntryRegisters :=
  #v[h.user.physStart.raw, h.user.physEnd.raw, h.user.offset, h.user.virtEntry.raw,
    h.tree.phys.raw, h.tree.size,
    if smp then h.core.hwId else 0,
    if smp then UInt64.ofNat h.core.logical else 0]

/-- The record of a core that is about to enter the kernel. -/
def record (h : Handoff) (kernel : Region) : Record where
  level := .info
  target := "lode_boot::handoff"
  text := s!"core {h.core.logical}: entering kernel at {kernel.virtEntry.display} " ++
    s!"(user {Text.hex h.user.physStart.toNat}..{Text.hex h.user.physEnd.toNat})"

/-- Enters the kernel, and the boot condition when it returns. Paging is on. -/
def enter (smp : Bool) (h : Handoff) (kernel : Region) (_ : Activation .active) :
    List Action × BootError :=
  ([.say (h.record kernel), .perform (.jump kernel.virtEntry (h.registers smp))],
    .unexpectedReturn kernel.virtEntry)

end Handoff

end BootLoader.Boot
