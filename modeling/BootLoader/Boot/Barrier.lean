import BootLoader.Boot.Program

/-!
# The barrier

All cores of a boot meet at a barrier before any of them turns paging on. The primary opens the
barrier for a number of cores when everything is in place. Each core waits until the barrier is
open, marks that it has arrived, which one core does at a time, and waits until all have.

There is no timeout: a core that never arrives holds all others. A core that is alone has nobody to
wait for.

Opening and passing the barrier are given as steps that access memory once each.
-/

namespace BootLoader.Boot

/-- The memory of a barrier for at most `n` cores. -/
structure Barrier (n : Nat) where
  /-- whether the barrier is open -/
  go : Bool := false
  /-- how many cores meet -/
  cores : Nat := 1
  /-- whether some core is marking its arrival -/
  locked : Bool := false
  /-- how many cores have arrived -/
  arrivals : Nat := 0
  /-- which cores have arrived -/
  ready : Vector Bool n := Vector.replicate n false
  deriving DecidableEq, Repr

namespace Barrier

variable {n : Nat}

/-! ## Opening -/

/-- Says how many cores meet: at least one, and at most as many as there is room for. -/
def setCores (b : Barrier n) (cores : Nat) : Barrier n := { b with cores := max 1 (min cores n) }

/-- Lets the cores in. -/
def openGate (b : Barrier n) : Barrier n := { b with go := true }

/-- Opens the barrier for a number of cores. -/
def release (b : Barrier n) (cores : Nat) : Barrier n := (b.setCores cores).openGate

/-! ## Arrivals -/

/-- Whether a core has arrived. -/
def isReady (b : Barrier n) (id : Nat) : Bool := (b.ready[id]?).getD false

/-- Whether all cores have arrived. -/
def allReady (b : Barrier n) : Bool := (List.range b.cores).all b.isReady

/-- How many of the cores have arrived. -/
def readyCount (b : Barrier n) : Nat := (List.range b.cores).countP b.isReady

/-- Whether there is a mark for a core and it is not set. -/
def isExpected (b : Barrier n) (id : Nat) : Bool := b.ready[id]? == some false

/-- Sets the mark of a core. -/
def mark (b : Barrier n) (id : Nat) : Barrier n :=
  { b with ready := b.ready.setIfInBounds id true }

/-- Counts one more arrival. -/
def countArrival (b : Barrier n) : Barrier n := { b with arrivals := b.arrivals + 1 }

/-- The barrier after the core `id` has arrived, which counts only once and only if there is room
for the core. -/
def arrive (b : Barrier n) (id : Nat) : Barrier n :=
  if b.isExpected id then (b.mark id).countArrival else b

/-- What other cores do at a barrier while one core waits. -/
structure Meanwhile where
  /-- the barrier is opened for this many cores -/
  release : Option Nat := none
  /-- then this core arrives -/
  arrive : Option Nat := none
  deriving DecidableEq, Repr

/-- The barrier after other cores did something. -/
def after (m : Meanwhile) (b : Barrier n) : Barrier n :=
  let b := match m.release with
    | none => b
    | some cores => b.release cores
  match m.arrive with
  | none => b
  | some id => b.arrive id

/-! ## Passing -/

/-- Where a core is on its way through the barrier. -/
inductive Phase where
  /-- it waits until the barrier is open -/
  | awaitGo
  /-- it looks whether it is alone -/
  | countCores
  /-- it waits until no other core is marking its arrival -/
  | lock
  /-- it sets its mark -/
  | mark
  /-- it counts itself, as its mark was not set before -/
  | count
  /-- it looks how many have arrived -/
  | tally
  /-- it lets other cores mark their arrival -/
  | unlock
  /-- it reports its arrival -/
  | report
  /-- it looks how many marks there are to wait for -/
  | beginScan
  /-- it looks at the mark number `index` of `limit` -/
  | scan (index limit : Nat)
  /-- it has passed -/
  | left
  deriving DecidableEq, Repr

/-- A core on its way through the barrier. -/
structure Visitor where
  /-- the core's logical id -/
  id : Nat
  /-- where it is -/
  phase : Phase := .awaitGo
  /-- whether it is the only core -/
  isAlone : Bool := false
  /-- how many cores had arrived when it did, itself included -/
  place : Option Nat := none
  deriving DecidableEq, Repr

/-- The record of an arrival. -/
def arrivalRecord (id place cores : Nat) : Journal.Record where
  level := .debug
  target := "lode_boot::rendezvous"
  text := s!"rendezvous: core {id} arrived ({place}/{cores})"

/-- The next step of a core on its way through the barrier. -/
def Visitor.step (v : Visitor) (b : Barrier n) : Step Visitor (Barrier n) :=
  let waits : List Action := [.perform .spinHint]
  match v.phase with
  | .awaitGo =>
    if b.go then { value := { v with phase := .countCores }, memory := b }
    else { value := v, memory := b, actions := waits }
  | .countCores => { value := { v with phase := .lock, isAlone := b.cores == 1 }, memory := b }
  | .lock =>
    if b.locked then { value := v, memory := b }
    else { value := { v with phase := .mark }, memory := { b with locked := true } }
  | .mark =>
    let next := if b.isExpected v.id then Phase.count else Phase.tally
    { value := { v with phase := next }, memory := b.mark v.id }
  | .count => { value := { v with phase := .tally }, memory := b.countArrival }
  | .tally => { value := { v with phase := .unlock, place := some b.arrivals }, memory := b }
  | .unlock =>
    let next := if v.isAlone then Phase.left else Phase.report
    { value := { v with phase := next }, memory := { b with locked := false } }
  | .report =>
    { value := { v with phase := .beginScan }, memory := b
      actions := [.say (arrivalRecord v.id (v.place.getD 0) b.cores)] }
  | .beginScan => { value := { v with phase := .scan 0 b.cores }, memory := b }
  | .scan index limit =>
    if index < limit then
      if b.isReady index then { value := { v with phase := .scan (index + 1) limit }, memory := b }
      else { value := { v with phase := .beginScan }, memory := b, actions := waits }
    else { value := { v with phase := .left }, memory := b }
  | .left => { value := v, memory := b }

/-- The way through the barrier. -/
def passage : Program Visitor (Barrier n) where
  step := Visitor.step
  isDone v := v.phase == .left

/-- The part of the way up to the open barrier. -/
def approach : Program Visitor (Barrier n) where
  step := Visitor.step
  isDone v := v.phase != .awaitGo

/-- More steps than a core makes without waiting on its way through a barrier for `n` cores. -/
def stride (n : Nat) : Nat := n + 16

end Barrier

end BootLoader.Boot
