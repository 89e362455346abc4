import BootLoader.Paging.MapError
import BootLoader.Paging.Walk

/-!
# Mapping plans

A range is mapped in one of two tiers. In the top tier its leaves are entries of the root table; in
the intermediate tier they are entries of child tables, one child for each root entry that the range
touches. A tier is usable when both bases of the range are aligned to its leaves, and when its
leaves are not pages, so the format with two levels has the top tier alone.

Mapping has two phases. A plan is made by reading the tables only: `Tables.plan` checks alignment,
range, conflicts and free frames, and refuses what cannot be mapped. `BootLoader.Paging.Build` then
performs the writes of a plan.
-/

namespace BootLoader.Paging

/-- The two sizes of leaf that a range can be mapped with. -/
inductive Tier where
  /-- leaves in the root table -/
  | top
  /-- leaves in child tables of the root -/
  | intermediate
  deriving DecidableEq, Repr

namespace Tier

/-- The level of the tables that hold the leaves of a tier. -/
def level : Tier → Nat
  | top => 0
  | intermediate => 1

/-- The name of a tier in diagnostics. -/
def name : Tier → String
  | top => "Top"
  | intermediate => "Intermediate"

end Tier

/-- The writes that a mapping needs, in short. -/
structure Plan where
  /-- where the leaves are -/
  tier : Tier
  /-- the first virtual address -/
  virt : VirtAddr
  /-- the first physical address -/
  phys : PhysAddr
  /-- the number of leaves -/
  steps : Nat
  /-- the number of bytes that a leaf covers -/
  granule : Nat
  /-- the number of child tables that have to be added -/
  newTables : Nat
  /-- the kind of memory behind the mapping -/
  memory : Memory
  deriving DecidableEq, Repr

namespace Plan

/-! ## The range of a plan -/

/-- The number of bytes that the plan covers. -/
def span (p : Plan) : Nat := p.steps * p.granule

/-- The distance of leaf number `step` from the bases; a distance that no word holds is a fault. -/
def distance (p : Plan) (step : Nat) : Except Fault UInt64 :=
  if step * p.granule < wordCount then .ok (UInt64.ofNat (step * p.granule)) else .error .overflow

/-- The span, as a word. -/
def spanWord (p : Plan) : Except Fault UInt64 := p.distance p.steps

/-- The last virtual address of the plan; it is a fault when there is none in the address space. -/
def lastVirt (p : Plan) : Except Fault Nat :=
  if 0 < p.span && p.span < wordCount && p.virt.toNat + (p.span - 1) < wordCount then
    .ok (p.virt.toNat + (p.span - 1))
  else .error .overflow

/-- Whether the virtual ranges of two plans intersect. -/
def overlaps (a b : Plan) : Except Fault Bool := do
  let lastA ← a.lastVirt
  let lastB ← b.lastVirt
  return a.virt.toNat ≤ lastB && b.virt.toNat ≤ lastA

/-- The distance from the physical to the virtual range, wrapping. -/
def relocation (p : Plan) : UInt64 := p.virt.raw - p.phys.raw

/-- Whether two plans would write different entries for one virtual address. Plans that overlap,
with the same tier, kind of memory and distance between their ranges, write the same leaves. -/
def conflicts (a b : Plan) : Except Fault Bool := do
  let overlap ← a.overlaps b
  return overlap && (a.tier != b.tier || a.memory != b.memory || a.relocation != b.relocation)

/-! ## The leaves of a plan -/

/-- The virtual address of leaf number `step`. -/
def virtAt (p : Plan) (step : Nat) : Except Fault VirtAddr :=
  (p.distance step).map p.virt.offset

/-- The entry that is leaf number `step`, for a table at `level`. -/
def leafAt (F : Format) (p : Plan) (step level : Nat) : Except Fault UInt64 := do
  let distance ← p.distance step
  F.leaf p.memory (p.phys.offset distance) level

end Plan

namespace Format

/-- The largest tier that both bases are aligned to. -/
def selectTier (F : Format) (virt : VirtAddr) (phys : PhysAddr) : Option Tier :=
  [Tier.top, Tier.intermediate].find? fun tier =>
    tier.level + 1 < F.levels &&
    virt.isAligned (F.levelShift tier.level) && phys.isAligned (F.levelShift tier.level)

/-- How many of the next `remaining` leaves of an intermediate plan, the first of them at `va`, are
in the child table of the root entry that `va` selects. -/
def stepsInSlot (F : Format) (va : VirtAddr) (remaining : Nat) : Nat :=
  min remaining (F.entries - F.index va 1)

/-- At least one leaf is in the child table that its address selects. -/
theorem stepsInSlot_pos (F : Format) (va : VirtAddr) (remaining : Nat) (h : 0 < remaining) :
    0 < F.stepsInSlot va remaining := by
  have := F.index_lt_entries va 1
  simp only [stepsInSlot]
  omega

/-- No more leaves are in a child table than remain. -/
theorem stepsInSlot_le (F : Format) (va : VirtAddr) (remaining : Nat) :
    F.stepsInSlot va remaining ≤ remaining := Nat.min_le_left _ _

/-- The plan for `size` bytes from `virt` to `phys`, as far as it does not depend on the tables: the
tier, the number of leaves that intersect the range, and that neither end leaves the address space
or wraps around the root table. -/
def outline (F : Format) (virt : VirtAddr) (phys : PhysAddr) (size : UInt64) (memory : Memory) :
    Except MapError Plan := do
  if size == 0 then throw (.invalidRange virt phys)
  let some tier := F.selectTier virt phys | throw (.misaligned virt phys size)
  let granule := F.levelSize tier.level
  let steps := (size.toNat + (granule - 1)) / granule
  let span := steps * granule
  if wordCount ≤ span then throw (.invalidRange virt phys)
  if wordCount ≤ virt.toNat + (span - 1) || wordCount ≤ phys.toNat + (span - 1) then
    throw (.invalidRange virt phys)
  let lastVirt : VirtAddr := .ofNat (virt.toNat + (span - 1))
  if F.coverage < span || F.index lastVirt 0 < F.index virt 0 then
    throw (.invalidRange virt phys)
  return { tier, virt, phys, steps, granule, newTables := 0, memory }

end Format

namespace Tables

variable {F : Format} {n : Nat}

/-! ## Checking a plan against the tables -/

/-- Refuses the leaves number `first` to `first + count - 1` of the plan if one of them would
replace another entry of the table in `frame` at `level`. -/
def checkLeaves (t : Tables F n) (p : Plan) (frame : FrameId) (level : Nat) :
    (first : Nat) → (count : Nat) → Outcome MapError Unit
  | _, 0 => .ok ()
  | first, count + 1 => do
    let va ← .ofFaulting (p.virtAt first)
    let wanted ← .ofFaulting (p.leafAt F first level)
    let existing ← .ofFaulting (t.read frame (F.index va level))
    if existing != 0 && existing != wanted then .refuse (.overlap va)
    checkLeaves t p frame level (first + 1) count

/-- Checks the leaves of an intermediate plan from number `step` on, of which `remaining` are left,
child table by child table. The value is `added` and the number of child tables that are missing. -/
def checkSlots (t : Tables F n) (root : FrameId) (p : Plan) (step remaining added : Nat) :
    Outcome MapError Nat :=
  if _ : remaining = 0 then .ok added
  else
    match p.virtAt step with
    | .error fault => .fault fault
    | .ok va =>
      let inSlot := F.stepsInSlot va remaining
      match t.read root (F.index va 0) with
      | .error fault => .fault fault
      | .ok raw =>
        match F.decode raw 0 with
        | .leaf _ _ => .refuse (.overlap va)
        | .invalid => checkSlots t root p (step + inSlot) (remaining - inSlot) (added + 1)
        | .next child =>
          match t.frameAt child with
          | none => .refuse (.foreignTable va)
          | some frame =>
            match t.checkLeaves p frame 1 step inSlot with
            | .error stop => .error stop
            | .ok () => checkSlots t root p (step + inSlot) (remaining - inSlot) added
  termination_by remaining
  decreasing_by all_goals
    have := F.stepsInSlot_pos va remaining (by omega)
    omega

/-- The number of child tables that are missing for a plan, if none of its leaves would replace
another entry. -/
def missingTables (t : Tables F n) (root : FrameId) (p : Plan) : Outcome MapError Nat :=
  match p.tier with
  | .top => do
    t.checkLeaves p root 0 0 p.steps
    return 0
  | .intermediate => t.checkSlots root p 0 p.steps 0

/-- The plan to map `size` bytes from `virt` to `phys` under the table in `root`. The end of the
range is not rounded: the plan covers exactly the leaves that intersect it. -/
def plan (t : Tables F n) (root : FrameId) (virt : VirtAddr) (phys : PhysAddr) (size : UInt64)
    (memory : Memory) : Outcome MapError Plan := do
  let outline ← (F.outline virt phys size memory).mapError .refused
  let newTables ← t.missingTables root outline
  if t.available < newTables then .refuse .storageExhausted
  return { outline with newTables }

/-- The plan to map the bytes from `start` to `limit` to themselves, rounded outwards to the top
tier. -/
def planIdentity (t : Tables F n) (root : FrameId) (start limit : PhysAddr) (memory : Memory) :
    Outcome MapError Plan :=
  let base := start.alignDown (F.levelShift 0)
  let top := limit.alignUp (F.levelShift 0)
  if top.raw ≤ base.raw then .refuse (.invalidRange start.identityMapped start)
  else t.plan root base.identityMapped base (top.raw - base.raw) memory

end Tables

end BootLoader.Paging
