import BootLoader.Bringup.Driver
import BootLoader.Core.Identity
import BootLoader.Journal.Record
import BootLoader.Processor.Operation

/-!
# Programs of cores

What a core does is given step by step: where it is, and the memory that it shares with other cores,
decide where it goes on, how the memory changes, and what it does beside that. Steps of different
cores may come between each other in any order.

`Program.run` lets one core go on alone. A core that waits says so with a hint to the processor;
each time it does, the memory changes in a way that is given beforehand, and when no more changes
are given the core has stalled.
-/

namespace BootLoader.Boot

open Bringup (DriverError)
open Journal (Record)
open Processor (Operation)

/-- What a core does beside changing memory. -/
inductive Action where
  /-- it says something -/
  | say (record : Record)
  /-- it performs a privileged operation -/
  | perform (operation : Operation)
  /-- it asks for the images -/
  | load
  /-- it fills in the wake-up block of a core -/
  | fill (logical : Nat) (block : WakeupBlock)
  /-- it asks the bring-up driver to start a core with a word of context -/
  | start (hwId : UInt64) (entry : PhysAddr) (context : UInt64) (result : Except DriverError Unit)

namespace Action

/-- What is said by an action. -/
def record? : Action → Option Record
  | say record => some record
  | _ => none

/-- The operation that an action performs. -/
def operation? : Action → Option Operation
  | perform operation => some operation
  | _ => none

/-- Whether the action is the hint of a core that waits. -/
def isHint (a : Action) : Bool := a.operation? == some .spinHint

end Action

/-- What a step gives. -/
structure Step (α μ : Type) where
  /-- where the core goes on, or what it has found out -/
  value : α
  /-- the memory after the step -/
  memory : μ
  /-- what the core does beside that, in order -/
  actions : List Action := []

namespace Step

variable {α β μ ν : Type}

/-- The same step with its value in other terms. -/
def map (f : α → β) (s : Step α μ) : Step β μ :=
  { value := f s.value, memory := s.memory, actions := s.actions }

/-- The same step where the memory is part of a larger one. -/
def mapMemory (f : μ → ν) (s : Step α μ) : Step α ν :=
  { value := s.value, memory := f s.memory, actions := s.actions }

end Step

/-- What a core does from each place it can be at. -/
structure Program (κ μ : Type) where
  /-- the next step -/
  step : κ → μ → Step κ μ
  /-- whether nothing comes after a place -/
  isDone : κ → Bool

/-- How far a core has come. -/
structure Progress (κ μ : Type) where
  /-- where the core is -/
  place : κ
  /-- the memory -/
  memory : μ
  /-- what the core did, in order -/
  actions : List Action := []
  /-- how often the memory changed while the core waited -/
  spins : Nat := 0

namespace Program

variable {κ μ : Type}

/-- Goes on for at most `steps` steps; each time the core waits, the memory changes by the next of
`meanwhile`. -/
def advance (p : Program κ μ) :
    (steps : Nat) → (meanwhile : List (μ → μ)) → Progress κ μ → Progress κ μ
  | 0, _, r => r
  | steps + 1, meanwhile, r =>
    if p.isDone r.place then r
    else
      let next := p.step r.place r.memory
      let r := { r with
        place := next.value, memory := next.memory, actions := r.actions ++ next.actions }
      if next.actions.any Action.isHint then
        match meanwhile with
        | [] => r
        | change :: meanwhile =>
          advance p steps meanwhile { r with memory := change r.memory, spins := r.spins + 1 }
      else advance p steps meanwhile r

/-- Goes on from `place` until the program is done or the core has stalled, where a core that does
not wait makes at most `stride` steps in a row. -/
def run (p : Program κ μ) (stride : Nat) (meanwhile : List (μ → μ)) (place : κ) (memory : μ) :
    Progress κ μ :=
  p.advance ((meanwhile.length + 1) * stride) meanwhile { place, memory }

end Program

end BootLoader.Boot
