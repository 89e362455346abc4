import BootLoader.Boot.Program
import BootLoader.Core.Map
import BootLoader.Core.Wakeup

/-!
# Starting the secondaries

The primary starts the secondaries one after the other, in the order of their logical ids. For each
it fills in the wake-up block, makes that write visible, and has the bring-up driver start the core
with the address of its block. The first core that cannot be started ends it.
-/

namespace BootLoader.Boot

open Bringup (Driver)
open Journal (Record)

/-- What the secondaries are started with. -/
structure Startup (σ : Type) where
  /-- the bring-up driver -/
  driver : Driver σ
  /-- the cores of the boot -/
  cores : CoreMap
  /-- where a secondary is entered -/
  entry : PhysAddr
  /-- the boot stacks -/
  bootStacks : Stacks
  /-- the address of what all cores share -/
  context : UInt64

namespace Startup

variable {n : Nat} {σ : Type}

/-- The memory that starting secondaries changes. -/
structure Memory (n : Nat) (σ : Type) where
  /-- the wake-up blocks -/
  wakeups : WakeupTable n
  /-- the state of the drivers -/
  drivers : σ

/-- How far it has come. -/
inductive Stage where
  /-- these cores are still to be started -/
  | remaining (cores : List CoreIdentity)
  /-- the block of a core at the address `block` is filled in -/
  | filled (core : CoreIdentity) (stackTop block : UInt64) (rest : List CoreIdentity)
  /-- the block is visible to the core -/
  | visible (core : CoreIdentity) (stackTop block : UInt64) (rest : List CoreIdentity)
  /-- all have been started -/
  | finished
  /-- a core could not be started -/
  | failed (e : BootError)
  deriving DecidableEq, Repr

/-- A record about the cores. -/
def record (level : Journal.Level) (text : String) : Record :=
  { level, target := "lode_boot::cores", text }

/-- The record of a core that is about to be started. -/
def startingRecord (name : String) (core : CoreIdentity) (stackTop : UInt64) : Record :=
  record .debug <| s!"{name}: starting core {core.logical} (hw {Text.hex core.hwId.toNat}) " ++
    s!"stack {Text.hex stackTop.toNat}"

/-- The record of secondaries that have all been started, if there are any. -/
def startedRecords (name : String) (cores : CoreMap) : List Record :=
  if cores.others.isEmpty then []
  else [record .info s!"{name}: started {cores.others.length} secondary core(s)"]

/-- What a core is woken with. -/
def block (s : Startup σ) (core : CoreIdentity) (stackTop : UInt64) : WakeupBlock where
  stackTop := stackTop
  hwId := core.hwId
  logicalId := UInt64.ofNat core.logical
  context := s.context

/-- Fills in the block of a core that has a stack and a block. -/
def fillBlock (s : Startup σ) (core : CoreIdentity) (rest : List CoreIdentity)
    (m : Memory n σ) : Step Stage (Memory n σ) :=
  let tooMany : Step Stage (Memory n σ) :=
    { value := .failed (.tooManyCores s.cores.count n), memory := m }
  match s.bootStacks.top core.logical with
  | none => tooMany
  | some stackTop =>
    let block := s.block core stackTop
    match m.wakeups.fill core.logical block with
    | none => tooMany
    | some (address, wakeups) =>
      { value := .filled core stackTop address rest
        memory := { m with wakeups }
        actions := [.fill core.logical block] }

/-- Has the driver start a core. -/
def startCore (s : Startup σ) (core : CoreIdentity) (stackTop block : UInt64)
    (rest : List CoreIdentity) (m : Memory n σ) : Step Stage (Memory n σ) :=
  let answer := s.driver.start core.hwId s.entry block m.drivers
  { value :=
      match answer.result with
      | .ok () => .remaining rest
      | .error e => .failed (e.forCore core.hwId)
    memory := { m with drivers := answer.state }
    actions := [.say (startingRecord s.driver.name core stackTop),
      .start core.hwId s.entry block answer.result] ++ answer.log.map .say }

/-- The next step. -/
def step (s : Startup σ) (stage : Stage) (m : Memory n σ) : Step Stage (Memory n σ) :=
  match stage with
  | .remaining [] =>
    { value := .finished, memory := m
      actions := (startedRecords s.driver.name s.cores).map .say }
  | .remaining (core :: rest) => s.fillBlock core rest m
  | .filled core stackTop block rest =>
    { value := .visible core stackTop block rest, memory := m, actions := [.perform .fenceData] }
  | .visible core stackTop block rest => s.startCore core stackTop block rest m
  | .finished => { value := .finished, memory := m }
  | .failed e => { value := .failed e, memory := m }

/-- Before the first secondary is started. -/
def initial (s : Startup σ) : Stage := .remaining s.cores.secondaries

/-- Whether there is no more to do. -/
def Stage.isDone : Stage → Bool
  | .finished => true
  | .failed _ => true
  | _ => false

/-- Starting the secondaries, as a program of the primary. -/
def program (s : Startup σ) : Program Stage (Memory n σ) where
  step := s.step
  isDone := Stage.isDone

/-- At least the number of steps that starting all cores takes. -/
def stride (s : Startup σ) : Nat := 3 * s.cores.count

/-- Starts the secondaries. -/
def run (s : Startup σ) (m : Memory n σ) : Progress Stage (Memory n σ) :=
  s.program.run s.stride [] s.initial m

end Startup

end BootLoader.Boot
