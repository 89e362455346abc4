import BootLoader.Image.Region
import BootLoader.Paging.Build
import BootLoader.Processor.Operation

/-!
# The address space of a boot

Two mappings are active when the kernel is entered: the self-map, which maps the loader's own memory
to itself so that the instruction after the root write is found where it was, and the kernel window,
which maps the kernel where it is linked. They share a root, or have one each when the format splits
the address space. A console with registers in memory adds a device mapping to the self-map, unless
the loader's own blocks cover it already.

All mappings are planned before the first entry is written, so a refusal leaves the roots empty.
-/

namespace BootLoader.Paging

open Journal (Record)
open Processor (RootPair)

/-- The memory of the running loader, and the console registers that it writes to. -/
structure Footprint where
  /-- the first byte of the loader -/
  start : PhysAddr
  /-- one past its last byte -/
  limit : PhysAddr
  /-- the console registers -/
  console : Option PhysAddr := none
  deriving DecidableEq, Repr

/-- Whether an address is in the loader's memory. -/
def Footprint.contains (f : Footprint) (pa : PhysAddr) : Bool :=
  f.start.raw ≤ pa.raw && pa.raw < f.limit.raw

/-- The roots of an address space. -/
structure AddressSpace where
  /-- the root of the self-map -/
  selfMap : FrameId
  /-- the root of the kernel window -/
  kernelMap : FrameId
  deriving DecidableEq, Repr

/-- The plans of an address space. -/
structure Layout where
  /-- the self-map of the loader -/
  identity : Plan
  /-- the console registers, if they need a mapping beside the self-map -/
  console : Option Plan
  /-- the window of the kernel -/
  window : Plan
  deriving DecidableEq, Repr

/-- The number of child tables that the plans of an address space add. -/
def Layout.newTables (layout : Layout) : Nat :=
  layout.identity.newTables + (layout.console.map Plan.newTables).getD 0 + layout.window.newTables

namespace AddressSpace

variable {F : Format} {n : Nat}

/-- The addresses of the roots. -/
def rootPair (space : AddressSpace) (t : Tables F n) : RootPair where
  selfMap := t.frameAddress space.selfMap
  kernelMap := t.frameAddress space.kernelMap

/-- Whether the mappings have different roots. -/
def isSplit (space : AddressSpace) : Bool := space.selfMap != space.kernelMap

/-- Refuses an address space whose self-map does not translate `pa` to itself. -/
def check (space : AddressSpace) (t : Tables F n) (pa : PhysAddr) : Outcome BootError Unit :=
  match t.translate space.selfMap pa.identityMapped with
  | .error fault => .fault fault
  | .ok found => if found = some pa then .ok () else .refuse (.selfMapMissing pa)

/-! ## Records -/

/-- A record of the assembly. -/
def assemblyRecord (level : Journal.Level) (text : String) : Record :=
  { level, target := "lode_boot::assembler", text }

/-- The record of a console that needs no mapping of its own. -/
def sharedConsole (base : PhysAddr) (selfMap : Plan) : Record :=
  assemblyRecord .warn s!"console {base.display} shares the loader's {selfMap.tier.name} leaf"

/-- The record of the self-map. -/
def selfMapped (f : Footprint) (p : Plan) : Record :=
  assemblyRecord .debug
    s!"self-map {f.start.display}..{f.limit.display} as {p.tier.name} x{p.steps}"

/-- The record of the console's mapping. -/
def consoleMapped (p : Plan) : Record :=
  assemblyRecord .debug s!"console {p.phys.display} mapped as device memory"

/-- The record of the kernel window. -/
def kernelMapped (kernel : Region) (p : Plan) : Record :=
  assemblyRecord .info <|
    s!"kernel window {kernel.virtStart.display} -> {kernel.physStart.display} " ++
    s!"({p.tier.name} tier, {p.steps} x {Text.hex p.granule})"

/-! ## Assembly -/

/-- The plan for the console registers, if they need a mapping beside the self-map. -/
def planConsole (selfMap : FrameId) (identity : Plan) :
    Option PhysAddr → Builder F n BootError (Option Plan)
  | none => pure none
  | some base => do
    let p ← .mapCause MapError.bootError <| .ofOutcome <|
      (← Builder.tables).planIdentity selfMap base (base.offset (UInt64.ofNat pageSize)) .device
    if ← .ofFaulting (p.overlaps identity) then
      Builder.say (sharedConsole base identity)
      return none
    else return some p

/-- Refuses a kernel window that conflicts with one of the given plans under the same root. -/
def checkWindow (kernel : Region) (window : Plan) : List Plan → Outcome BootError Unit
  | [] => .ok ()
  | p :: plans => do
    if ← .ofFaulting (window.conflicts p) then
      .refuse (MapError.overlap kernel.virtStart).bootError
    checkWindow kernel window plans

/-- Refuses plans that conflict under a shared root, or need more frames than there are. -/
def checkLayout (space : AddressSpace) (kernel : Region) (layout : Layout) (available : Nat) :
    Outcome BootError Unit := do
  checkWindow kernel layout.window
    (if space.isSplit then [] else layout.identity :: layout.console.toList)
  if available < layout.newTables then .refuse .tableStorageExhausted

/-- Hands out the roots of an address space. -/
def allocateRoots : Builder F n BootError AddressSpace := do
  let selfMap ← Builder.allocate .tableStorageExhausted
  if F.splitRoots then
    return { selfMap, kernelMap := ← Builder.allocate .tableStorageExhausted }
  else return { selfMap, kernelMap := selfMap }

/-- Plans the mappings under the given roots. -/
def layOut (space : AddressSpace) (footprint : Footprint) (kernel : Region) :
    Builder F n BootError Layout := do
  let t ← Builder.tables
  let identity ← .mapCause MapError.bootError <| .ofOutcome <|
    t.planIdentity space.selfMap footprint.start footprint.limit .normal
  let console ← planConsole space.selfMap identity footprint.console
  let window ← .mapCause MapError.bootError <| .ofOutcome <|
    t.plan space.kernelMap kernel.virtStart kernel.physStart kernel.size .normal
  .ofOutcome (checkLayout space kernel { identity, console, window } t.available)
  return { identity, console, window }

/-- Everything that is done before the first entry is written. -/
def prepare (footprint : Footprint) (kernel : Region) :
    Builder F n BootError (AddressSpace × Layout) := do
  .ofOutcome (kernel.check.mapError .refused)
  let space ← allocateRoots
  let layout ← layOut space footprint kernel
  return (space, layout)

/-- Performs a plan under the given root, and says so. -/
def perform (root : FrameId) (p : Plan) (said : Record) : Builder F n BootError Unit := do
  .mapCause MapError.bootError (.apply root p)
  Builder.say said

/-- Performs the plans of an address space. -/
def fill (space : AddressSpace) (footprint : Footprint) (kernel : Region) (layout : Layout) :
    Builder F n BootError Unit := do
  perform space.selfMap layout.identity (selfMapped footprint layout.identity)
  layout.console.forM fun p => perform space.selfMap p (consoleMapped p)
  perform space.kernelMap layout.window (kernelMapped kernel layout.window)

/-- Builds the self-map of the loader and the window of the kernel. -/
def assemble (footprint : Footprint) (kernel : Region) : Builder F n BootError AddressSpace := do
  let (space, layout) ← prepare footprint kernel
  fill space footprint kernel layout
  return space

end AddressSpace

end BootLoader.Paging
