import BootLoader.Bringup.Candidate
import BootLoader.Processor.Instruction

/-!
# The hand-over to a parked core

A parked core watches its release word, and once the word is written it goes through a trampoline
that takes an entry point and a word of context from a mailbox. There is one mailbox for all cores;
a context of zero says that it is empty. A start posts into the empty mailbox and then writes one
release word, so the next start has to wait until the released core has emptied the mailbox.

Both sides are given as steps that access memory at most once, which other cores' steps may come
between.
-/

namespace BootLoader.Bringup

open Processor (Instruction)

/-- What is handed to the next released core. -/
structure Mailbox where
  /-- where it goes on -/
  entry : UInt64 := 0
  /-- its word of context; zero when the mailbox is empty -/
  context : UInt64 := 0
  deriving DecidableEq, Repr

/-- Whether the mailbox is empty. -/
def Mailbox.isEmpty (m : Mailbox) : Bool := m.context == 0

/-- The memory that a start shares with parked cores. -/
structure Handover where
  /-- the mailbox -/
  mailbox : Mailbox := {}
  /-- the release words that have been written -/
  released : List PhysAddr := []
  deriving DecidableEq, Repr

/-! ## Starting a core -/

/-- What a start still has to do. -/
inductive StartStep where
  /-- to wait until the mailbox is empty -/
  | awaitEmpty
  /-- to write the entry point into the mailbox -/
  | postEntry
  /-- to write the context into the mailbox -/
  | postContext
  /-- to write the release word -/
  | writeRelease
  /-- to wake the core -/
  | signal
  /-- nothing -/
  | finished
  deriving DecidableEq, Repr

/-- A start of the core that watches the word at `release`. -/
structure Start where
  /-- the release word of the core -/
  release : PhysAddr
  /-- where the core goes on -/
  entry : UInt64
  /-- its word of context -/
  context : UInt64
  /-- what is still to be done -/
  step : StartStep := .awaitEmpty
  deriving DecidableEq, Repr

/-- The start and the memory after its next step. -/
def Start.next (s : Start) (h : Handover) : Start × Handover :=
  match s.step with
  | .awaitEmpty => (if h.mailbox.isEmpty then { s with step := .postEntry } else s, h)
  | .postEntry =>
    ({ s with step := .postContext }, { h with mailbox := { h.mailbox with entry := s.entry } })
  | .postContext =>
    ({ s with step := .writeRelease },
      { h with mailbox := { h.mailbox with context := s.context } })
  | .writeRelease => ({ s with step := .signal }, { h with released := h.released ++ [s.release] })
  | .signal => ({ s with step := .finished }, h)
  | .finished => (s, h)

/-- The memory after `count` steps of a start on its own. -/
def Start.run : (count : Nat) → Start → Handover → Handover
  | 0, _, h => h
  | count + 1, s, h =>
    let (s, h) := s.next h
    run count s h

/-- The number of steps of a start that does not have to wait. -/
def Start.length : Nat := 5

/-! ## Leaving the park -/

/-- Where a parked core is. -/
inductive Parked where
  /-- it watches its release word -/
  | watching
  /-- it waits for a context -/
  | awaitContext
  /-- it has read the context, and goes on to the entry point -/
  | takeEntry (context : UInt64)
  /-- it has read both, and goes on to empty the mailbox -/
  | clear (entry context : UInt64)
  /-- it has left -/
  | left (entry context : UInt64)
  deriving DecidableEq, Repr

/-- The core that watches the word at `release`, and the memory, after its next step. -/
def Parked.next (release : PhysAddr) (p : Parked) (h : Handover) : Parked × Handover :=
  match p with
  | .watching => (if h.released.contains release then .awaitContext else .watching, h)
  | .awaitContext => (if h.mailbox.isEmpty then .awaitContext else .takeEntry h.mailbox.context, h)
  | .takeEntry context => (.clear h.mailbox.entry context, h)
  | .clear entry context =>
    (.left entry context, { h with mailbox := { h.mailbox with context := 0 } })
  | .left entry context => (.left entry context, h)

/-- The core and the memory after `count` of its steps on its own. -/
def Parked.run (release : PhysAddr) : (count : Nat) → Parked → Handover → Parked × Handover
  | 0, p, h => (p, h)
  | count + 1, p, h =>
    let (p, h) := p.next release h
    run release count p h

/-- The number of steps in which a released core leaves. -/
def Parked.length : Nat := 4

/-- The memory after the core that was released last has left, if it has not left yet. -/
def Handover.settle (h : Handover) : Handover :=
  match h.released.getLast? with
  | none => h
  | some release => (Parked.run release Parked.length .watching h).2

end BootLoader.Bringup
