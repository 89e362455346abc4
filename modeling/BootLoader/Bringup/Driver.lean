import BootLoader.Bringup.Candidate
import BootLoader.BootError
import BootLoader.Journal.Record
import BootLoader.Processor.Instruction

/-!
# Bring-up drivers

A bring-up driver starts one core at a physical entry point with one word of context. It is
configured by probing candidates, and may remember what it saw: a driver is a pair of functions on
its state, and each call gives the state after it, what the driver said, and the instructions that
it executed.
-/

namespace BootLoader.Bringup

open Journal (Record)
open Processor (Instruction)

/-- Why a driver refuses: a status code of the firmware, or of the driver itself. -/
structure DriverError where
  /-- the status code -/
  code : Int
  deriving DecidableEq, Repr

namespace DriverError

/-- The refusal as it is reported. -/
def message (e : DriverError) : String := s!"bring-up failed with status {e.code}"

/-- The boot condition when the core `hwId` could not be started. -/
def forCore (e : DriverError) (hwId : UInt64) : BootError := .coreStartFailed hwId e.code

end DriverError

/-- What a call of a driver gives. -/
structure Answer (σ : Type) where
  /-- whether the driver did what it was asked -/
  result : Except DriverError Unit
  /-- the state after the call -/
  state : σ
  /-- what the driver said -/
  log : List Record := []
  /-- the instructions that it executed -/
  executed : List Instruction := []

namespace Answer

variable {σ τ : Type}

/-- The driver did what it was asked. -/
def accept (state : σ) : Answer σ := { result := .ok (), state }

/-- The driver refuses with a status code. -/
def refuse (code : Int) (state : σ) : Answer σ := { result := .error ⟨code⟩, state }

/-- The answer where the state is part of a larger one. -/
def mapState (f : σ → τ) (a : Answer σ) : Answer τ :=
  { result := a.result, state := f a.state, log := a.log, executed := a.executed }

end Answer

/-- A mechanism that starts secondary cores, with its state in `σ`. -/
structure Driver (σ : Type) where
  /-- its name in diagnostics -/
  name : String
  /-- configures the driver from a candidate that it handles -/
  probe : Candidate → σ → Answer σ
  /-- starts the core `hwId` at `entry` with the word `context` -/
  start : (hwId : UInt64) → (entry : PhysAddr) → (context : UInt64) → σ → Answer σ

/-- The same driver where its state is the part of a larger one that `get` finds and `set`
replaces. -/
def Driver.focus {σ τ : Type} (get : τ → σ) (set : σ → τ → τ) (d : Driver σ) : Driver τ where
  name := d.name
  probe c s := (d.probe c (get s)).mapState (set · s)
  start hwId entry context s := (d.start hwId entry context (get s)).mapState (set · s)

end BootLoader.Bringup
