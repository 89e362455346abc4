import BootLoader.Boot.Program

/-!
# Activation

Each core turns paging on for itself, in two steps that have to come in order: the fence that makes
the tables visible to the walk, and the write of the root, after which instructions are fetched
anew. The state that the core is in is part of the type, so no step can be left out or repeated, and
there is no way back.
-/

namespace BootLoader.Boot

open Processor (Operation RootPair)

/-- The states of a core on its way to paging. -/
inductive ActivationState where
  /-- paging is off, and table writes may still be on their way -/
  | inactive
  /-- table writes are visible, and the root is not written -/
  | publishing
  /-- paging is on -/
  | active
  deriving DecidableEq, Repr

/-- The name of a state. -/
def ActivationState.name : ActivationState → String
  | inactive => "inactive"
  | publishing => "publishing"
  | active => "active"

/-- A core in the state `s` of taking root tables into use. -/
structure Activation (s : ActivationState) where
  /-- the tables -/
  root : RootPair
  deriving DecidableEq, Repr

namespace Activation

variable {s : ActivationState}

/-- The name of the state. -/
def stateName (_ : Activation s) : String := s.name

/-- Before the first step. -/
def begin (root : RootPair) : Activation .inactive := ⟨root⟩

/-- The operations of the first step, and the state after it. -/
def fence (a : Activation .inactive) : List Operation × Activation .publishing :=
  ([.fenceData], ⟨a.root⟩)

/-- The operations of the second step, and the state after it. -/
def publish (a : Activation .publishing) : List Operation × Activation .active :=
  ([.publish a.root, .fenceInstructions], ⟨a.root⟩)

/-- All the operations of taking root tables into use, and the state after them. -/
def activate (root : RootPair) : List Operation × Activation .active :=
  let (first, publishing) := (begin root).fence
  let (second, active) := publishing.publish
  (first ++ second, active)

end Activation

end BootLoader.Boot
