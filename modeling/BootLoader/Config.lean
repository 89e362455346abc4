import BootLoader.Boot.Platform
import BootLoader.Journal.Line

/-!
# The build configuration

What is fixed when the loader is built. Beside what the device tree says, nothing else decides how a
boot goes.
-/

namespace BootLoader.Config

/-- The number of cores that a loader has room for; `smp` tells a loader for several cores. -/
def maxCores (smp : Bool) : Nat := if smp then 8 else 1

/-- The number of table frames: two roots, and a child for each root entry that a mapping of the
smaller tier touches. -/
def tableFrames : Nat := 8

/-- The size in bytes of a boot stack. -/
def coreStackSize : Nat := 0x4000

/-- The size in bytes of the largest device tree whose cores are looked at. -/
def maxTreeSize : Nat := Boot.maxTreeSize

/-- The number of bytes of a line of the log. -/
def logLineSize : Nat := Journal.lineSize

/-- The registers of the console on AArch64. -/
def consoleBase : PhysAddr := ⟨0x9000000⟩

/-- The least serious level that the boot console shows. -/
def logLevel : Journal.Level := .threshold

end BootLoader.Config
