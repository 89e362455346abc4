import BootLoader.Journal.Record
import BootLoader.Paging.Plan

/-!
# Building tables

A builder changes tables step by step, and keeps two accounts of what it did: the edits, which are
the frames handed out and the entries written, in order, and the records for the log. What a builder
did before it stops stays done.

A child table is filled before the root entry that points at it is written, so a walk never sees a
child that is half built.
-/

namespace BootLoader.Paging

open Journal (Record)

/-- One change of the tables. -/
inductive Edit where
  /-- the next frame is handed out -/
  | allocate
  /-- an entry is written -/
  | write (frame : FrameId) (index : Nat) (raw : UInt64)
  deriving DecidableEq, Repr

/-- The tables after one change. -/
def Tables.edit {F : Format} {n : Nat} (t : Tables F n) : Edit → Tables F n
  | .allocate => t.takeFrame
  | .write frame index raw => t.setEntry frame index raw

/-- Tables under construction, and what has been done to them. -/
structure Worksite (F : Format) (n : Nat) where
  /-- the tables as they are now -/
  tables : Tables F n
  /-- what has been done to them, oldest first -/
  edits : Array Edit := #[]
  /-- what has been said about it, oldest first -/
  log : Array Record := #[]

/-- A computation that builds tables. -/
abbrev Builder (F : Format) (n : Nat) (ε : Type) := EStateM (Stop ε) (Worksite F n)

namespace Builder

variable {F : Format} {n : Nat} {ε δ α : Type}

/-- Does nothing, with the outcome `o`. -/
def ofOutcome (o : Outcome ε α) : Builder F n ε α := fun w =>
  match o with
  | .ok a => .ok a w
  | .error stop => .error stop w

/-- Does nothing, unless a fault is given. -/
def ofFaulting (o : Except Fault α) : Builder F n ε α := ofOutcome (.ofFaulting o)

/-- The same construction with the causes of its refusals in other terms. -/
def mapCause (f : ε → δ) (b : Builder F n ε α) : Builder F n δ α := fun w =>
  match b w with
  | .ok a w => .ok a w
  | .error stop w => .error (stop.map f) w

/-- The tables as they are now. -/
def tables : Builder F n ε (Tables F n) := fun w => .ok w.tables w

/-- Says something about the construction. -/
def say (r : Record) : Builder F n ε Unit := fun w => .ok () { w with log := w.log.push r }

/-- Hands out a frame, or refuses for the given cause when all are in use. -/
def allocate (exhausted : ε) : Builder F n ε FrameId := fun w =>
  match w.tables.allocate with
  | none => .error (.refused exhausted) w
  | some (frame, tables) => .ok frame { w with tables, edits := w.edits.push .allocate }

/-- Writes an entry. -/
def write (frame : FrameId) (index : Nat) (raw : UInt64) : Builder F n ε Unit := fun w =>
  match w.tables.write frame index raw with
  | .error fault => .error (.fault fault) w
  | .ok tables => .ok () { w with tables, edits := w.edits.push (.write frame index raw) }

/-! ## Performing a plan -/

/-- Writes the leaves number `first` to `first + count - 1` of a plan to the table in `frame` at
`level`. -/
def writeLeaves (p : Plan) (frame : FrameId) (level : Nat) :
    (first : Nat) → (count : Nat) → Builder F n MapError Unit
  | _, 0 => pure ()
  | first, count + 1 => do
    let va ← ofFaulting (p.virtAt first)
    let leaf ← ofFaulting (p.leafAt F first level)
    write frame (F.index va level) leaf
    writeLeaves p frame level (first + 1) count

/-- Writes the leaves number `step` to `step + inSlot - 1` of an intermediate plan, which start at
`va` and share a root entry, to the child table of that entry. A missing child is added: the root
entry is written last, when the child is complete. -/
def writeSlot (root : FrameId) (p : Plan) (va : VirtAddr) (step inSlot : Nat) :
    Builder F n MapError Unit := do
  let slot := F.index va 0
  let raw ← ofFaulting ((← tables).read root slot)
  match F.decode raw 0 with
  | .leaf _ _ => throw (.refused (.overlap va))
  | .next child =>
    match (← tables).frameAt child with
    | none => throw (.refused (.foreignTable va))
    | some frame => writeLeaves p frame 1 step inSlot
  | .invalid =>
    let frame ← allocate .storageExhausted
    writeLeaves p frame 1 step inSlot
    let pointer ← ofFaulting (F.pointer ((← tables).frameAddress frame))
    write root slot pointer

/-- Writes the leaves of an intermediate plan from number `step` on, of which `remaining` are left,
child table by child table. -/
def writeSlots (root : FrameId) (p : Plan) (step remaining : Nat) : Builder F n MapError Unit :=
  if _ : remaining = 0 then pure ()
  else
    match p.virtAt step with
    | .error fault => throw (.fault fault)
    | .ok va => do
      let inSlot := F.stepsInSlot va remaining
      writeSlot root p va step inSlot
      writeSlots root p (step + inSlot) (remaining - inSlot)
  termination_by remaining
  decreasing_by
    have := F.stepsInSlot_pos va remaining (by omega)
    omega

/-- Performs the writes of a plan made for the table in `root`. -/
def apply (root : FrameId) (p : Plan) : Builder F n MapError Unit :=
  match p.tier with
  | .top => writeLeaves p root 0 0 p.steps
  | .intermediate => writeSlots root p 0 p.steps

/-! ## Mapping -/

/-- The record of a mapping that is about to be made. -/
def mapRecord (F : Format) (p : Plan) : Record where
  level := .debug
  target := "lode_paging::builder"
  text := s!"{F.name}: map {p.virt.display} -> {p.phys.display} {p.tier.name} x{p.steps} " ++
    s!"({Text.hex p.granule} bytes each)"

/-- Maps `size` bytes of normal memory from `virt` to `phys` under the table in `root`. -/
def map (root : FrameId) (virt : VirtAddr) (phys : PhysAddr) (size : UInt64) :
    Builder F n MapError Plan := do
  let p ← ofOutcome ((← tables).plan root virt phys size .normal)
  say (mapRecord F p)
  apply root p
  return p

/-- Maps the bytes of normal memory from `start` to `limit` to themselves, rounded outwards to the
top tier. -/
def mapIdentity (root : FrameId) (start limit : PhysAddr) : Builder F n MapError Plan := do
  let p ← ofOutcome ((← tables).planIdentity root start limit .normal)
  apply root p
  return p

end Builder

end BootLoader.Paging
