import BootLoader.Boot.Context
import BootLoader.Boot.Platform
import BootLoader.Boot.Startup

/-!
# The course of a boot

The primary core prepares the boot, starts the secondaries and opens the barrier. From there on
every core does the same: it passes the barrier, turns paging on and enters the kernel, and it comes
back only if the kernel does. A secondary starts at the barrier, with the identity in its wake-up
block.

A core whose boot cannot go on reports why and halts.
-/

namespace BootLoader.Boot

open Journal (Record)
open Paging (Footprint Format)

/-! ## The part of every core -/

/-- Where a core is on its way from the barrier into the kernel. -/
inductive Tail where
  /-- it passes the barrier -/
  | barrier (visitor : Barrier.Visitor)
  /-- it waits for the plan -/
  | awaitPlan
  /-- it makes the tables visible -/
  | fence (plan : Plan) (vm : Activation .inactive)
  /-- it turns paging on -/
  | publish (plan : Plan) (vm : Activation .publishing)
  /-- it enters the kernel -/
  | enter (plan : Plan) (vm : Activation .active)
  /-- it came back from the kernel -/
  | returned (e : BootError)
  deriving DecidableEq, Repr

namespace Tail

variable {F : Format} {frames room : Nat}

/-- Before the barrier. -/
def initial (core : CoreIdentity) : Tail := .barrier { id := core.logical }

/-- The next step of a core. -/
def step (smp : Bool) (core : CoreIdentity) (t : Tail) (c : Context F frames room) :
    Step Tail (Context F frames room) :=
  match t with
  | .barrier visitor =>
    if visitor.phase == .left then { value := .awaitPlan, memory := c }
    else
      ((visitor.step c.barrier).mapMemory fun barrier => { c with barrier }).map .barrier
  | .awaitPlan =>
    match c.plan with
    | none => { value := .awaitPlan, memory := c }
    | some plan => { value := .fence plan (.begin plan.root), memory := c }
  | .fence plan vm =>
    let (operations, vm) := vm.fence
    { value := .publish plan vm, memory := c, actions := operations.map .perform }
  | .publish plan vm =>
    let (operations, vm) := vm.publish
    { value := .enter plan vm, memory := c, actions := operations.map .perform }
  | .enter plan vm =>
    let handoff : Handoff := { user := plan.images.user, tree := plan.tree, core }
    let (actions, e) := handoff.enter smp plan.images.kernel vm
    { value := .returned e, memory := c, actions }
  | .returned e => { value := .returned e, memory := c }

/-- Why the core came back from the kernel, if it did. -/
def result? : Tail → Option BootError
  | .returned e => some e
  | _ => none

/-- The part of every core, as the program of the core `core`. -/
def program (smp : Bool) (core : CoreIdentity) : Program Tail (Context F frames room) where
  step := step smp core
  isDone t := t.result?.isSome

/-- More steps than a core makes without waiting. -/
def stride (room : Nat) : Nat := Barrier.stride room + 8

/-- Lets a core go on from the barrier. -/
def run (smp : Bool) (core : CoreIdentity)
    (meanwhile : List (Context F frames room → Context F frames room))
    (c : Context F frames room) : Progress Tail (Context F frames room) :=
  (program smp core).run (stride room) meanwhile (initial core) c

end Tail

/-! ## The part of the primary -/

/-- What the primary boots with. -/
structure Setup (σ : Type) where
  /-- where the images come from -/
  source : ImageSource
  /-- the memory of the loader -/
  footprint : Footprint
  /-- an address of the loader's code -/
  pc : PhysAddr
  /-- what is known about the machine -/
  platform : Platform σ
  /-- where a secondary is entered -/
  entry : PhysAddr
  /-- the boot stacks -/
  bootStacks : Stacks
  /-- the address of the boot context -/
  contextAddress : UInt64
  /-- whether this is a loader for several cores -/
  smp : Bool := true

/-- All the memory of a boot. -/
structure World (F : Format) (frames room : Nat) (σ : Type) where
  /-- what all cores share -/
  context : Context F frames room
  /-- what starting secondaries changes -/
  startup : Startup.Memory room σ

/-- The memory after other cores did something at the barrier. -/
def World.after {F : Format} {frames room : Nat} {σ : Type} (m : Barrier.Meanwhile)
    (w : World F frames room σ) : World F frames room σ :=
  { w with context := w.context.after m }

/-- Where a core is in a boot. -/
inductive Course where
  /-- the primary prepares the boot -/
  | prepare
  /-- it starts secondaries -/
  | startup (stage : Startup.Stage)
  /-- it tells the barrier how many cores meet -/
  | setCores
  /-- it opens the barrier -/
  | openGate
  /-- the core is in the part of every core -/
  | tail (t : Tail)
  /-- the boot cannot go on -/
  | failed (e : BootError)
  /-- a rule was broken -/
  | faulted (f : Fault)
  deriving DecidableEq, Repr

namespace Course

variable {F : Format} {frames room : Nat} {σ : Type}

/-- The record of a barrier that is about to be opened. -/
def releaseRecord (cores : Nat) : Record where
  level := .info
  target := "lode_boot::boot"
  text := s!"releasing {cores} core(s)"

/-- What the secondaries are started with by a driver. -/
def startupOf (s : Setup σ) (driver : Bringup.Driver σ) : Startup σ where
  driver := driver
  cores := s.platform.cores
  entry := s.entry
  bootStacks := s.bootStacks
  context := s.contextAddress

/-- Where the primary goes on when everything is prepared. -/
def afterPrepare (s : Setup σ) : Course :=
  if s.platform.cores.others.isEmpty then .setCores
  else if s.platform.driver.isNone then .failed .noSmpDriver
  else .startup (.remaining s.platform.cores.secondaries)

/-- The next step of starting secondaries. -/
def startupStep (s : Setup σ) (stage : Startup.Stage) (w : World F frames room σ) :
    Step Course (World F frames room σ) :=
  match stage, s.platform.driver with
  | .finished, _ => { value := .setCores, memory := w }
  | .failed e, _ => { value := .failed e, memory := w }
  | _, none => { value := .failed .noSmpDriver, memory := w }
  | stage, some driver =>
    (((startupOf s driver).step stage w.startup).mapMemory fun startup =>
      { w with startup }).map .startup

/-- The next step of the core `core`. -/
def step (s : Setup σ) (core : CoreIdentity) (course : Course) (w : World F frames room σ) :
    Step Course (World F frames room σ) :=
  match course with
  | .prepare =>
    let prepared := w.context.prepare s.source s.footprint s.pc s.platform.tree
    { value :=
        match prepared.value with
        | .ok _ => afterPrepare s
        | .error (.refused e) => .failed e
        | .error (.fault f) => .faulted f
      memory := { w with context := prepared.memory }
      actions := prepared.actions }
  | .startup stage => startupStep s stage w
  | .setCores =>
    let cores := s.platform.cores.count
    { value := .openGate
      memory := { w with context.barrier := w.context.barrier.setCores cores }
      actions := [.say (releaseRecord cores)] }
  | .openGate =>
    { value := .tail (.initial core)
      memory := { w with context.barrier := w.context.barrier.openGate } }
  | .tail t =>
    ((t.step s.smp core w.context).mapMemory fun context => { w with context }).map .tail
  | .failed e => { value := .failed e, memory := w }
  | .faulted f => { value := .faulted f, memory := w }

/-- Whether the part of the primary is over. -/
def isPrepared : Course → Bool
  | .tail _ => true
  | .failed _ => true
  | .faulted _ => true
  | _ => false

/-- What a core came to at the end of its course: why the boot could not go on, if it is not still
under way. -/
def result? : Course → Option (Stop BootError)
  | .tail t => t.result?.map .refused
  | .failed e => some (.refused e)
  | .faulted f => some (.fault f)
  | _ => none

/-- The part of the primary, up to the open barrier. -/
def preparation (s : Setup σ) : Program Course (World F frames room σ) where
  step := step s s.platform.cores.primary
  isDone := isPrepared

/-- The whole course of the core `core`. -/
def program (s : Setup σ) (core : CoreIdentity) : Program Course (World F frames room σ) where
  step := step s core
  isDone course := course.result?.isSome

/-- More steps than a core makes without waiting. -/
def stride (s : Setup σ) (room : Nat) : Nat := 3 * s.platform.cores.count + Tail.stride room + 8

/-- Prepares the boot, starts the secondaries and opens the barrier. -/
def preparePrimary (s : Setup σ) (w : World F frames room σ) :
    Progress Course (World F frames room σ) :=
  (preparation s).run (stride s room) [] .prepare w

/-- Boots as the primary. -/
def primary (s : Setup σ) (meanwhile : List (World F frames room σ → World F frames room σ))
    (w : World F frames room σ) : Progress Course (World F frames room σ) :=
  (program s s.platform.cores.primary).run (stride s room) meanwhile .prepare w

end Course

/-! ## The end of a boot that cannot go on -/

/-- What a core says before it halts. -/
def fatalRecord (e : BootError) : Record where
  level := .error
  target := "lode_boot::boot"
  text := s!"boot failed: {e.message}"

end BootLoader.Boot
