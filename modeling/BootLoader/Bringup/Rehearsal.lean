import BootLoader.Bringup.Hsm
import BootLoader.Bringup.Psci
import BootLoader.Bringup.Registry
import BootLoader.Bringup.SpinTable

/-!
# Rehearsing bring-up

In a rehearsal there is no machine behind the drivers. Each driver stands on a stage, where
everything that it is asked is recorded with what it answers; it is one of the loader's own, or an
understudy that follows a script. The parked cores of a spin table play their part: a core that was
released leaves the park at once, or only when the next core is to be started if it is late.
-/

namespace BootLoader.Bringup

open Processor (Instruction)

namespace Rehearsal

/-- Who plays a driver, with its state. -/
inductive Actor where
  | psci (p : Psci)
  | spinTable (t : SpinTable)
  | hsm (f : Firmware)
  /-- an understudy, which follows a script -/
  | understudy

namespace Actor

/-- The mailbox of a spin table that a core has still to leave. -/
def fullMailbox? : Actor → Option Mailbox
  | spinTable t => if t.handover.mailbox.isEmpty then none else some t.handover.mailbox
  | _ => none

/-- The actor after all released cores have left the park. -/
def settle : Actor → Actor
  | spinTable t => .spinTable { t with handover := t.handover.settle }
  | other => other

/-- The release address of a core that is on record; only a spin table keeps such records. -/
def releaseAddr (hwId : UInt64) : Actor → Option PhysAddr
  | spinTable t => t.releaseAddr hwId
  | _ => none

/-- Whether the driver runs on a real processor, where its calls execute instructions. -/
def isNative : Actor → Bool
  | psci p => p.firmware != .absent
  | spinTable t => !t.wakeUp.isEmpty
  | hsm f => f != .absent
  | understudy => false

/-- Whether released cores leave a park. -/
def hasPark : Actor → Bool
  | spinTable _ => true
  | _ => false

end Actor

/-- What an understudy refuses. -/
structure Script where
  /-- the probes that it refuses, by their number since its records were last taken, with a code -/
  reject : List (Nat × Int) := []
  /-- the cores that it does not start, with a code -/
  fail : List (UInt64 × Int) := []

/-- What is recorded of a probe. -/
structure Probed where
  /-- what the driver was asked about -/
  candidate : Candidate
  /-- what it answered -/
  result : Except DriverError Unit
  /-- the instructions that it executed -/
  executed : List Instruction

/-- What is recorded of a start. -/
structure Started where
  /-- the core -/
  hwId : UInt64
  /-- where it was to be entered -/
  entry : PhysAddr
  /-- its word of context -/
  argument : UInt64
  /-- what the driver answered -/
  result : Except DriverError Unit
  /-- the instructions that it executed -/
  executed : List Instruction
  /-- whether the core's release word was written -/
  isReleased : Bool
  /-- what the released core found in the mailbox, if it was not late -/
  mailbox : Option Mailbox
  /-- what a late core found in the mailbox before -/
  earlier : Option Mailbox

/-- A driver on its stage. -/
structure Stage where
  /-- its name -/
  name : String
  /-- the texts that it handles -/
  handles : String → Bool
  /-- who plays it -/
  actor : Actor
  /-- what an understudy refuses -/
  script : Script := {}
  /-- whether the core that is started next is late -/
  isLate : Bool := false
  /-- the probes, oldest first -/
  probes : List Probed := []
  /-- the starts, oldest first -/
  starts : List Started := []

namespace Stage

/-- The stage of one of the loader's own drivers, which has a firmware below it if `results` are
given: what the calls of that firmware give. -/
def ofName? (name : String) (results : Option (List Int64)) : Option Stage :=
  let firmware := (results.map Firmware.answering).getD .absent
  let wakeUp := if results.isSome then SpinTable.eventSignal else []
  match name with
  | "psci" => some { name, handles := Psci.handles, actor := .psci { firmware } }
  | "spin-table" => some { name, handles := SpinTable.handles, actor := .spinTable { wakeUp } }
  | "sbi-hsm" => some { name, handles := Hsm.handles, actor := .hsm firmware }
  | _ => none

/-- The understudy's answer, which is a refusal if there is a code. -/
def follow : Option Int → Answer Actor
  | none => .accept .understudy
  | some code => .refuse code .understudy

/-- Probes a candidate. -/
def probe (c : Candidate) (s : Stage) : Answer Stage :=
  let answer : Answer Actor :=
    match s.actor with
    | .psci p => (Psci.driver.probe c p).mapState .psci
    | .spinTable t => (SpinTable.driver.probe c t).mapState .spinTable
    | .hsm f => (Hsm.driver.probe c f).mapState .hsm
    | .understudy => follow (s.script.reject.lookup s.probes.length)
  answer.mapState fun actor =>
    { s with actor, probes := s.probes ++ [⟨c, answer.result, answer.executed⟩] }

/-- Probes candidates one after the other, and what is said meanwhile. -/
def probeAll (s : Stage) : List Candidate → Stage × List Journal.Record
  | [] => (s, [])
  | c :: cs =>
    let answer := s.probe c
    let (s, log) := answer.state.probeAll cs
    (s, answer.log ++ log)

/-- Starts a core. -/
def start (hwId : UInt64) (entry : PhysAddr) (context : UInt64) (s : Stage) : Answer Stage :=
  let answer : Answer Actor :=
    match s.actor with
    | .psci p => (Psci.driver.start hwId entry context p).mapState .psci
    | .spinTable t => (SpinTable.driver.start hwId entry context t).mapState .spinTable
    | .hsm f => (Hsm.driver.start hwId entry context f).mapState .hsm
    | .understudy => follow (s.script.fail.lookup hwId)
  let isReleased := answer.result.toBool && s.actor.hasPark
  let started : Started :=
    { hwId, entry, argument := context, result := answer.result, executed := answer.executed
      isReleased
      mailbox := if isReleased && !s.isLate then answer.state.fullMailbox? else none
      earlier := s.actor.fullMailbox? }
  answer.mapState fun actor =>
    { s with
      actor := if isReleased && s.isLate then actor else actor.settle
      starts := s.starts ++ [started] }

/-- The stage after its records were taken. -/
def cleared (s : Stage) : Stage := { s with probes := [], starts := [], isLate := false }

end Stage

end Rehearsal

/-- The stages of a rehearsal. -/
abbrev Rehearsal := Array Rehearsal.Stage

namespace Rehearsal

/-- Does something on stage number `i`. -/
def onStage (i : Nat) (act : Stage → Answer Stage) (r : Rehearsal) : Answer Rehearsal :=
  match r[i]? with
  | none => .accept r
  | some stage => (act stage).mapState fun stage => r.setIfInBounds i stage

/-- The driver on stage number `i`, which is `stage`. -/
def driver (i : Nat) (stage : Stage) : Driver Rehearsal where
  name := stage.name
  probe c := onStage i (Stage.probe c)
  start hwId entry context := onStage i (Stage.start hwId entry context)

/-- The registry that lists the drivers in the order of their stages. -/
def registry (r : Rehearsal) : Registry Rehearsal :=
  r.toList.zipIdx.map fun (stage, i) => { handles := stage.handles, driver := driver i stage }

end Rehearsal

end BootLoader.Bringup
