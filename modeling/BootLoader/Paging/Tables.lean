import BootLoader.Paging.Format

/-!
# Table storage

All page tables live in one fixed run of page-sized frames. Frames are handed out in order and
never come back, so a frame is named by its place in the run, and the frames in use are those below
`used`. Reading or writing outside the run is a fault.
-/

namespace BootLoader.Paging

/-- A frame, named by its place in the storage. -/
abbrev FrameId := Nat

/-- Storage for `n` tables of the format `F`. -/
structure Tables (F : Format) (n : Nat) where
  /-- the address of the first frame -/
  base : PhysAddr
  /-- how many frames have been handed out -/
  used : Nat
  /-- the entries of every frame as they are stored -/
  frames : Vector (Vector UInt64 F.entries) n

namespace Tables

variable {F : Format} {n : Nat}

/-- Storage at `base` with no frame handed out. -/
def empty (F : Format) (n : Nat) (base : PhysAddr) : Tables F n :=
  ⟨base, 0, Vector.replicate n (Vector.replicate F.entries 0)⟩

/-- How many frames can still be handed out. -/
def available (t : Tables F n) : Nat := n - t.used

/-! ## Entries -/

/-- The stored entry at `index` of `frame`, zero outside the storage. -/
def entryAt (t : Tables F n) (frame : FrameId) (index : Nat) : UInt64 :=
  ((t.frames[frame]?).bind (·[index]?)).getD 0

/-- Whether the storage has an entry at `index` of `frame`. -/
def hasEntry (_ : Tables F n) (frame : FrameId) (index : Nat) : Bool :=
  frame < n && index < F.entries

/-- The entry at `index` of `frame`. -/
def read (t : Tables F n) (frame : FrameId) (index : Nat) : Except Fault UInt64 :=
  if t.hasEntry frame index then .ok (t.entryAt frame index) else .error .indexOutOfRange

/-- The storage with the entry at `index` of `frame` replaced, as its width stores it. -/
def setEntry (t : Tables F n) (frame : FrameId) (index : Nat) (raw : UInt64) : Tables F n :=
  match t.frames[frame]? with
  | none => t
  | some table =>
    { t with
      frames := t.frames.setIfInBounds frame (table.setIfInBounds index (F.width.stored raw)) }

/-- Replaces the entry at `index` of `frame`. -/
def write (t : Tables F n) (frame : FrameId) (index : Nat) (raw : UInt64) :
    Except Fault (Tables F n) :=
  if t.hasEntry frame index then .ok (t.setEntry frame index raw) else .error .indexOutOfRange

/-- What the entry at `index` of `frame` says, read as an entry of a table at `level`. -/
def entry (t : Tables F n) (frame : FrameId) (level index : Nat) : Except Fault Entry :=
  (t.read frame index).map (F.decode · level)

/-- The entries of a frame that are not zero, each with its index. -/
def nonZero (t : Tables F n) (frame : FrameId) : List (Nat × UInt64) :=
  (List.range F.entries).filterMap fun index =>
    let raw := t.entryAt frame index
    if raw == 0 then none else some (index, raw)

/-- How many entries of a frame are not zero. -/
def validEntries (t : Tables F n) (frame : FrameId) : Except Fault Nat :=
  if frame < n then .ok (t.nonZero frame).length else .error .indexOutOfRange

/-! ## Frames -/

/-- The storage after the next frame is handed out, cleared. -/
def takeFrame (t : Tables F n) : Tables F n :=
  { t with
    used := t.used + 1
    frames := t.frames.setIfInBounds t.used (Vector.replicate F.entries 0) }

/-- The next frame and the storage after it is handed out; none when all are in use. -/
def allocate (t : Tables F n) : Option (FrameId × Tables F n) :=
  if t.used == n then none else some (t.used, t.takeFrame)

/-- The address of a frame. -/
def frameAddress (t : Tables F n) (frame : FrameId) : PhysAddr :=
  t.base.offset (UInt64.ofNat (pageSize * frame))

/-- The frame in use that starts at `pa`. Its index is a word of a 64-bit machine and none is cut off:
that a 32-bit machine keeps only the lower half is not modelled. -/
def frameAt (t : Tables F n) (pa : PhysAddr) : Option FrameId :=
  if pa.toNat < t.base.toNat || !pa.isPageAligned then none
  else
    let frame := (pa.toNat - t.base.toNat) / pageSize
    if frame < t.used then some frame else none

end Tables

end BootLoader.Paging
