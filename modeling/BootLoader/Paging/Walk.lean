import BootLoader.Paging.Tables

/-!
# The table walk

`Tables.translate` follows the entries that a virtual address selects, from a root down, as the
hardware does. An address is unmapped when the walk meets an invalid entry, a pointer that leaves
the storage, or a pointer below the last level.
-/

namespace BootLoader.Paging.Tables

variable {F : Format} {n : Nat}

/-- Walks on from the table in `frame` at `level` with `depth` levels left. -/
def walk (t : Tables F n) (va : VirtAddr) :
    (depth : Nat) → (frame : FrameId) → (level : Nat) → Except Fault (Option PhysAddr)
  | 0, _, _ => .ok none
  | depth + 1, frame, level => do
    let raw ← t.read frame (F.index va level)
    match F.decode raw level with
    | .invalid => .ok none
    | .leaf base _ => .ok (some (base.offset (UInt64.ofNat (F.blockOffset va level))))
    | .next child =>
      match t.frameAt child with
      | none => .ok none
      | some frame => walk t va depth frame (level + 1)

/-- The physical address that `va` has under the table in `root`. -/
def translate (t : Tables F n) (root : FrameId) (va : VirtAddr) :
    Except Fault (Option PhysAddr) :=
  t.walk va F.levels root 0

end BootLoader.Paging.Tables
