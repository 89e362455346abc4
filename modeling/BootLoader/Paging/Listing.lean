import BootLoader.Journal.Record
import BootLoader.Paging.Tables

/-!
# Table listings

A listing has one line for each valid entry under a table, in the order of the entries; the lines of
a child table come right after the entry that points at it. A pointer that leaves the storage has no
lines below it. Tables that point back at a table above them have no listing, which is a fault.
-/

namespace BootLoader.Paging

open Journal (Record)

/-- One line of a listing: a valid entry and where it stands. -/
structure ListedEntry where
  /-- the level that its table was read at -/
  level : Nat
  /-- its place in its table -/
  index : Nat
  /-- the entry as it is stored -/
  raw : UInt64
  deriving DecidableEq, Repr

/-- A line of a listing as a log record. -/
def ListedEntry.record (F : Format) (e : ListedEntry) : Record where
  level := .debug
  target := "lode_paging::tables"
  text :=
    let place := Text.padStart ' ' 4 (toString e.index)
    s!"{F.name} L{e.level} [{place}] " ++ F.inspectEntry e.raw e.level

namespace Tables

variable {F : Format} {n : Nat}

/-- The lines for the entries `indexes` of the table in `frame` at `level`, where `below` gives the
lines of a child table. -/
def listEntries (t : Tables F n) (frame : FrameId) (level : Nat)
    (below : FrameId → Except Fault (List ListedEntry)) :
    (indexes : List Nat) → Except Fault (List ListedEntry)
  | [] => .ok []
  | index :: indexes => do
    let raw ← t.read frame index
    let lines ←
      match F.decode raw level with
      | .invalid => .ok []
      | .leaf _ _ => .ok [⟨level, index, raw⟩]
      | .next child =>
        match t.frameAt child with
        | none => .ok [⟨level, index, raw⟩]
        | some frame => do .ok (⟨level, index, raw⟩ :: (← below frame))
    let rest ← listEntries t frame level below indexes
    .ok (lines ++ rest)

/-- The lines for the table in `frame` at `level` and at most `depth` tables below one another. -/
def listFrom (t : Tables F n) :
    (depth : Nat) → (frame : FrameId) → (level : Nat) → Except Fault (List ListedEntry)
  | 0, _, _ => .error .cyclicTables
  | depth + 1, frame, level =>
    t.listEntries frame level (fun child => listFrom t depth child (level + 1))
      (List.range F.entries)

/-- The lines for the table in `frame`, read as a table at `level`. A path through more tables than
there are frames in use, and more than there are levels, goes through one of them twice. -/
def listing (t : Tables F n) (frame : FrameId) (level : Nat) : Except Fault (List ListedEntry) :=
  t.listFrom (t.used + F.levels + 1) frame level

end Tables

end BootLoader.Paging
