import BootLoader.Boot.Course

/-!
# All cores of a boot

A machine is the memory of a boot with all its cores: the primary on its course, and a secondary for
every core that the bring-up driver said it started (`Machine`). A secondary has nothing but the word
it was started with. It takes this for the address of a wake-up block, and goes on as the core that
the block names, if the block leads to the boot context.

The steps of the cores come in any order, so a run is a list that says whose step is next
(`Machine.run`). A step accesses the shared memory once, but for two: the primary prepares the boot
while it is alone, and a secondary reads the words of its block, which nobody writes any more.
-/

namespace BootLoader.Boot

open Paging (Format)
open Processor (Operation)

/-! ## What cores do -/

namespace Action

/-- The word that a core was started with, if an action started one. -/
def startedWith? : Action → Option UInt64
  | .start _ _ context (.ok ()) => some context
  | _ => none

end Action

/-- The words that cores were started with by some actions. -/
def startedWith (actions : List Action) : List UInt64 := actions.filterMap Action.startedWith?

/-- The operations among some actions, without the hints of a core that waits. -/
def operationsOf (actions : List Action) : List Operation :=
  (actions.filterMap Action.operation?).filter (· != .spinHint)

/-- The operations of two lists of actions. -/
@[simp]
theorem operationsOf_append (first second : List Action) :
    operationsOf (first ++ second) = operationsOf first ++ operationsOf second := by
  unfold operationsOf
  rw [List.filterMap_append, List.filter_append]

/-- Saying something is no operation. -/
@[simp]
theorem operationsOf_map_say (records : List Journal.Record) :
    operationsOf (records.map .say) = [] := by
  have hnone : ∀ a ∈ records.map Action.say, a.operation? = none := by simp [Action.operation?]
  unfold operationsOf
  rw [List.filterMap_eq_nil_iff.mpr hnone, List.filter_nil]

/-- The cores started by two lists of actions. -/
@[simp]
theorem startedWith_append (first second : List Action) :
    startedWith (first ++ second) = startedWith first ++ startedWith second :=
  List.filterMap_append

/-- Saying something starts no core. -/
@[simp]
theorem startedWith_map_say (records : List Journal.Record) :
    startedWith (records.map .say) = [] := by
  have hnone : ∀ a ∈ records.map Action.say, a.startedWith? = none := by simp [Action.startedWith?]
  exact List.filterMap_eq_nil_iff.mpr hnone

/-- Whether an operation takes tables into use or enters the kernel. -/
def entersKernel : Operation → Bool
  | .publish _ | .jump _ _ => true
  | .fenceData | .fenceInstructions | .spinHint => false

/-! ## Secondaries -/

/-- A core that was started. -/
inductive Secondary where
  /-- it has not yet read the block at the address it was started with -/
  | waking (block : UInt64)
  /-- it is in the part of every core -/
  | running (core : CoreIdentity) (tail : Tail)
  /-- there is no block that leads it to the boot context -/
  | lost
  deriving DecidableEq, Repr

variable {F : Format} {frames room : Nat} {σ : Type}

namespace Secondary

/-- Where a secondary is in the part of every core. -/
def tail? : Secondary → Option Tail
  | running _ t => some t
  | _ => none

/-- A secondary in the part of every core is running. -/
theorem eq_running {x : Secondary} {t : Tail} (h : x.tail? = some t) :
    ∃ core, x = .running core t := by
  cases x with
  | running core u =>
    obtain rfl : u = t := Option.some.inj h
    exact ⟨core, rfl⟩
  | waking address => cases h
  | lost => cases h

/-- The next step of a secondary. -/
def step (s : Setup σ) (x : Secondary) (w : World F frames room σ) :
    Step Secondary (World F frames room σ) :=
  match x with
  | .waking address =>
    match (w.startup.wakeups.blockAt address).filter (·.context == s.contextAddress) with
    | none => { value := .lost, memory := w }
    | some block => { value := .running block.identity (.initial block.identity), memory := w }
  | .running core t =>
    ((t.step s.smp core w.context).mapMemory fun context => { w with context }).map (.running core)
  | .lost => { value := .lost, memory := w }

end Secondary

/-- Where the primary is in the part of every core. -/
def Course.tail? : Course → Option Tail
  | .tail t => some t
  | _ => none

/-- The primary is in the part of every core. -/
theorem Course.eq_tail {course : Course} {t : Tail} (h : course.tail? = some t) :
    course = .tail t := by
  cases course with
  | tail u => exact congrArg Course.tail (Option.some.inj h)
  | _ => cases h

/-! ## Machines -/

/-- A core with all that it did. -/
structure Core (κ : Type) where
  /-- where it is -/
  place : κ
  /-- what it did, in order -/
  actions : List Action := []

/-- The core after a step. -/
def Core.after {κ μ : Type} (c : Core κ) (next : Step κ μ) : Core κ where
  place := next.value
  actions := c.actions ++ next.actions

/-- All cores of a boot and their memory. -/
structure Machine (F : Format) (frames room : Nat) (σ : Type) where
  /-- the memory -/
  world : World F frames room σ
  /-- the primary -/
  primary : Core Course := { place := .prepare }
  /-- the secondaries that were started, in that order -/
  secondaries : List (Core Secondary) := []

/-- Whose step it is. -/
inductive Agent where
  /-- that of the primary -/
  | primary
  /-- that of the secondary that was started as the number `index`, from zero -/
  | secondary (index : Nat)
  deriving DecidableEq, Repr

/-- The agent of the core with a logical id. -/
def Agent.of : (logical : Nat) → Agent
  | 0 => .primary
  | index + 1 => .secondary index

namespace Machine

/-- A machine at the start of a boot, with no table in use and the barrier closed. -/
def initial (F : Format) (frames : Nat) (base : PhysAddr) (wakeups : WakeupTable room)
    (drivers : σ) : Machine F frames room σ where
  world := { context := .initial F frames room base, startup := { wakeups, drivers } }

/-- The next step of the primary. -/
def nextOfPrimary (s : Setup σ) (m : Machine F frames room σ) :
    Step Course (World F frames room σ) :=
  m.primary.place.step s s.platform.cores.primary m.world

/-- The machine after the next step of the primary, where those it started are waking. -/
def stepPrimary (s : Setup σ) (m : Machine F frames room σ) : Machine F frames room σ :=
  let next := m.nextOfPrimary s
  { world := next.memory
    primary := m.primary.after next
    secondaries :=
      m.secondaries ++ (startedWith next.actions).map fun block => { place := .waking block } }

/-- The machine after the next step of a secondary, if it was started. -/
def stepSecondary (s : Setup σ) (m : Machine F frames room σ) (index : Nat) :
    Machine F frames room σ :=
  match m.secondaries[index]? with
  | none => m
  | some c =>
    let next := c.place.step s m.world
    { m with world := next.memory, secondaries := m.secondaries.set index (c.after next) }

/-- The machine after the next step of one core. -/
def step (s : Setup σ) (m : Machine F frames room σ) : Agent → Machine F frames room σ
  | .primary => m.stepPrimary s
  | .secondary index => m.stepSecondary s index

/-- The machine after the steps of a schedule. -/
def run (s : Setup σ) (m : Machine F frames room σ) (schedule : List Agent) :
    Machine F frames room σ :=
  schedule.foldl (step s) m

/-! ## What is seen of a machine -/

/-- What a core is about to do. -/
def upcoming (s : Setup σ) (m : Machine F frames room σ) : Agent → List Action
  | .primary => (m.nextOfPrimary s).actions
  | .secondary index => (m.secondaries[index]?.map (·.place.step s m.world |>.actions)).getD []

/-- Where the core with a logical id is in the part of every core. -/
def tail? (m : Machine F frames room σ) : (logical : Nat) → Option Tail
  | 0 => m.primary.place.tail?
  | index + 1 => m.secondaries[index]?.bind (·.place.tail?)

/-- The operations that the core with a logical id has performed. -/
def operations (m : Machine F frames room σ) : (logical : Nat) → List Operation
  | 0 => operationsOf m.primary.actions
  | index + 1 => (m.secondaries[index]?.map (operationsOf ·.actions)).getD []

end Machine

end BootLoader.Boot
