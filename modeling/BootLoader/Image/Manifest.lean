import BootLoader.Image.Region
import BootLoader.Journal.Record

/-!
# The image manifest

The packager puts the kernel and the first user program into memory beside the loader, and writes
down where they went in a record that is linked into the loader. The loader reads that record and
nothing of the images themselves. A record that was never filled in has no magic number.
-/

namespace BootLoader

open Journal (Record)

/-- What asking for the images gives, and what is said meanwhile. -/
structure ImageSource where
  /-- the images, or why there are none -/
  result : Except BootError LoadedImages
  /-- what is said when they are asked for -/
  log : List Record := []
  deriving Repr

/-- Where one image was put. -/
structure Placement where
  /-- first physical byte -/
  physStart : UInt64
  /-- one past the last physical byte -/
  physEnd : UInt64
  /-- first virtual byte -/
  virtStart : UInt64
  /-- virtual entry point -/
  virtEntry : UInt64
  deriving DecidableEq, Repr

namespace Placement

/-- The placement of no image. -/
def none : Placement := ⟨0, 0, 0, 0⟩

/-- The region of an image with this placement. -/
def region (p : Placement) : Region := .place p.physStart p.physEnd p.virtStart p.virtEntry

end Placement

/-- The record of the images. -/
structure Manifest where
  /-- tells a record that was filled in -/
  magic : UInt32
  /-- the version of the record's layout -/
  version : UInt32
  /-- how many user images were packed -/
  numApps : UInt32
  /-- where the kernel is -/
  kernel : Placement
  /-- where the first user program is -/
  user : Placement
  deriving DecidableEq, Repr

namespace Manifest

/-- The magic number: the letters `LODE`, the first in the lowest byte. -/
def magicNumber : UInt32 := 0x45444f4c

/-- The version that the loader reads. -/
def currentVersion : UInt32 := 1

/-- The record as it is linked, before it is filled in. -/
def unpatched : Manifest := ⟨0, 0, 0, .none, .none⟩

/-- The record of the given placements. -/
def ofPlacements (kernel user : Placement) (numApps : UInt32) : Manifest :=
  ⟨magicNumber, currentVersion, numApps, kernel, user⟩

/-- The images that the record describes. -/
def images (m : Manifest) : LoadedImages where
  kernel := m.kernel.region
  user := m.user.region
  numApps := m.numApps.toNat

/-- The ranges of a region and its entry, as they are reported. -/
def describe (r : Region) : String :=
  s!"{r.physStart.display}..{r.physEnd.display} -> {r.virtStart.display}..{r.virtEnd.display} " ++
    s!"entry {r.virtEntry.display}"

/-- The records of images that were found. -/
def foundRecords (images : LoadedImages) : List Record :=
  let say (text : String) : Record := { level := .info, target := "lode_boot::images", text }
  [say ("kernel: " ++ describe images.kernel),
    say ("user:   " ++ describe images.user ++ s!" ({images.numApps} image(s))")]

/-- Asks the record for the images; a record with another magic number or version has none. -/
def load (m : Manifest) : ImageSource :=
  if m.magic = magicNumber ∧ m.version = currentVersion then
    { result := .ok m.images, log := foundRecords m.images }
  else { result := .error (.invalidManifest m.magic m.version) }

end Manifest

end BootLoader
