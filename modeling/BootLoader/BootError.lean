import BootLoader.Address

/-!
# Fatal boot conditions

Every condition here ends the boot: the core that meets one reports it once and halts, and nothing
is tried again. A condition is a cause with the values that it names; `BootError.message` has the
wording.
-/

namespace BootLoader

/-- The conditions that end a boot. -/
inductive BootError where
  /-- the archive does not hold exactly one user image -/
  | noUserImage (found : Nat)
  /-- no mapping tier fits the bases of the region -/
  | misalignedRegion (virt : VirtAddr) (phys : PhysAddr) (size : UInt64)
  /-- the kernel returned to the loader -/
  | unexpectedReturn (entry : VirtAddr)
  /-- a region descriptor contradicts itself -/
  | invalidRegion (virt : VirtAddr) (phys : PhysAddr)
  /-- a mapping would replace an entry that is in use -/
  | regionOverlap (virt : VirtAddr)
  /-- no table frame is left -/
  | tableStorageExhausted
  /-- the platform has more cores than the loader has room for -/
  | tooManyCores (found max : Nat)
  /-- the bring-up driver could not start a core -/
  | coreStartFailed (hwId : UInt64) (code : Int)
  /-- there are secondary cores, and no driver that can start them -/
  | noSmpDriver
  /-- the image record is missing, or of another version -/
  | invalidManifest (magic version : UInt32)
  /-- the self-map does not translate the loader's own code to itself -/
  | selfMapMissing (addr : PhysAddr)
  deriving DecidableEq, Repr

namespace BootError

/-- The name of the condition. -/
def name : BootError → String
  | noUserImage _ => "NoUserImage"
  | misalignedRegion _ _ _ => "MisalignedRegion"
  | unexpectedReturn _ => "UnexpectedReturn"
  | invalidRegion _ _ => "InvalidRegion"
  | regionOverlap _ => "RegionOverlap"
  | tableStorageExhausted => "TableStorageExhausted"
  | tooManyCores _ _ => "TooManyCores"
  | coreStartFailed _ _ => "CoreStartFailed"
  | noSmpDriver => "NoSmpDriver"
  | invalidManifest _ _ => "InvalidManifest"
  | selfMapMissing _ => "SelfMapMissing"

/-- The condition as it is reported. -/
def message : BootError → String
  | noUserImage found => s!"expected exactly one user image, found {found}"
  | misalignedRegion virt phys size =>
    s!"region {virt.display} -> {phys.display} ({Text.hex size.toNat} bytes) " ++
      "is not aligned to any mapping tier"
  | unexpectedReturn entry => s!"kernel entry {entry.display} returned to the loader"
  | invalidRegion virt phys => s!"invalid region descriptor {virt.display} -> {phys.display}"
  | regionOverlap virt => s!"mapping at {virt.display} overlaps an existing entry"
  | tableStorageExhausted => "page table storage exhausted"
  | tooManyCores found max => s!"platform has {found} cores, loader supports {max}"
  | coreStartFailed hwId code => s!"failed to start core {Text.hex hwId.toNat} (status {code})"
  | noSmpDriver => "no SMP bring-up driver for this platform"
  | invalidManifest magic version =>
    s!"bad image manifest (magic {Text.hexPadded 8 magic.toNat}, version {version})"
  | selfMapMissing addr => s!"loader address {addr.display} is not identity mapped"

end BootError

end BootLoader
