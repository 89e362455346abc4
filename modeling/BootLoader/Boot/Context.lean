import BootLoader.Boot.Barrier
import BootLoader.Boot.Handoff
import BootLoader.Image.Manifest
import BootLoader.Paging.AddressSpace
import BootLoader.Paging.Listing

/-!
# The boot context

All cores of a boot share the table storage, the plan of the boot and the barrier. The primary
prepares them: it asks for the images, builds the address space, makes sure that its own code is
mapped where it is, and publishes the plan. The plan is published once, and asking again changes
nothing.
-/

namespace BootLoader.Boot

open Journal (Record)
open Paging (AddressSpace Builder Footprint Format Tables)
open Processor (RootPair)

/-- What every core needs to enter the kernel. -/
structure Plan where
  /-- the images -/
  images : LoadedImages
  /-- the roots of the address space -/
  space : AddressSpace
  /-- the addresses of these roots -/
  root : RootPair
  /-- where the device tree is -/
  tree : TreeLocation
  deriving DecidableEq, Repr

/-- What the cores of a boot share, with room for `frames` tables and `room` cores. -/
structure Context (F : Format) (frames room : Nat) where
  /-- the table storage -/
  tables : Tables F frames
  /-- the plan, once it is published -/
  plan : Option Plan := none
  /-- the barrier that the cores meet at -/
  barrier : Barrier room := {}

namespace Context

variable {F : Format} {frames room : Nat}

/-- Before anything is prepared; the tables are at `base`. -/
def initial (F : Format) (frames room : Nat) (base : PhysAddr) : Context F frames room :=
  { tables := .empty F frames base }

/-- The context after other cores did something at the barrier. -/
def after (m : Barrier.Meanwhile) (c : Context F frames room) : Context F frames room :=
  { c with barrier := .after m c.barrier }

/-! ## Preparing -/

/-- Says what is in the table in `root`. -/
def sayListing (root : Paging.FrameId) : Builder F frames BootError Unit := do
  let lines ← .ofFaulting ((← Builder.tables).listing root 0)
  for line in lines do Builder.say (line.record F)

/-- The record of how much of the storage is in use. -/
def usageRecord (t : Tables F frames) : Record where
  level := .info
  target := "lode_boot::context"
  text := s!"{F.name}: {t.used} of {frames} table frames used"

/-- Builds the address space for a kernel, which has to map the loader's code at `pc` to itself. -/
def build (kernel : Region) (footprint : Footprint) (pc : PhysAddr) :
    Builder F frames BootError AddressSpace := do
  let space ← AddressSpace.assemble footprint kernel
  .ofOutcome (space.check (← Builder.tables) pc)
  sayListing space.selfMap
  if space.isSplit then sayListing space.kernelMap
  Builder.say (usageRecord (← Builder.tables))
  return space

/-- The images of a source, if they are what a boot needs. -/
def checkedImages (source : ImageSource) : Except BootError LoadedImages := do
  let images ← source.result
  images.check
  return images

/-- Asks for the images, builds the address space and publishes the plan, if that has not been done
yet. -/
def prepare (source : ImageSource) (footprint : Footprint) (pc : PhysAddr) (tree : TreeLocation)
    (c : Context F frames room) : Step (Outcome BootError Plan) (Context F frames room) :=
  match c.plan with
  | some plan => { value := .ok plan, memory := c }
  | none =>
    let asked := Action.load :: source.log.map .say
    match checkedImages source with
    | .error e => { value := .refuse e, memory := c, actions := asked }
    | .ok images =>
      match build images.kernel footprint pc { tables := c.tables } with
      | .error stop w =>
        { value := .error stop, memory := { c with tables := w.tables }
          actions := asked ++ w.log.toList.map .say }
      | .ok space w =>
        let plan : Plan := { images, space, root := space.rootPair w.tables, tree }
        { value := .ok plan, memory := { c with tables := w.tables, plan := some plan }
          actions := asked ++ w.log.toList.map .say }

end Context

end BootLoader.Boot
