import BootLoader.Bringup.Driver
import BootLoader.Bringup.Handover

/-!
# Bring-up through a spin table

Cores that the firmware has parked are started by writing their release words. The driver learns the
words by probing, keeps the last one for each core in a table of fixed size, and hands each started
core its entry point and context through the mailbox of `BootLoader.Bringup.Handover`.
-/

namespace BootLoader.Bringup

open Processor (Instruction)

/-- The number of cores that the table has room for. -/
def maxReleases : Nat := 16

/-- The spin-table driver's state. -/
structure SpinTable where
  /-- the known release words, filled from the front -/
  slots : Vector (Option Release) maxReleases := Vector.replicate maxReleases none
  /-- the memory shared with the parked cores -/
  handover : Handover := {}
  /-- the instructions that wake a sleeping core after its release word is written -/
  wakeUp : List Instruction := []
  deriving DecidableEq, Repr

namespace SpinTable

/-- The status code when no release word is known for a core. -/
def noRelease : Int := -7

/-- The status code when a release word is missing or cannot be written, and when there is no
context to hand over. -/
def invalidNode : Int := -2

/-- The status code when the table is full. -/
def tableFull : Int := -4

/-- The enable method of the cores that this driver starts. -/
def enableMethod : String := "spin-table"

/-- Whether a text is the enable method of a parked core. -/
def handles (compatible : String) : Bool := compatible == enableMethod

/-- The wake-up instructions of a machine whose cores sleep until an event. -/
def eventSignal : List Instruction := [.dsbSy, .sev]

/-- The release word of a core. -/
def releaseAddr (t : SpinTable) (hwId : UInt64) : Option PhysAddr :=
  ((t.slots.toList.filterMap id).find? (·.hwId == hwId)).map (·.addr)

/-- Whether a slot can take the release word of a core: it is free, or has an earlier one. -/
def accepts (hwId : UInt64) : Option Release → Bool
  | none => true
  | some release => release.hwId == hwId

/-- The table with a release word put into the first slot that can take it. -/
def record? (t : SpinTable) (release : Release) : Option SpinTable :=
  match t.slots.findFinIdx? (accepts release.hwId) with
  | none => none
  | some slot => some { t with slots := t.slots.set slot.val (some release) slot.isLt }

/-- Whether a release word can be written: it is somewhere, and aligned. -/
def isUsable (release : Release) : Bool := !release.addr.isNull && release.addr.isAligned 3

/-- Learns the release word of a core. -/
def probe (c : Candidate) (t : SpinTable) : Answer SpinTable :=
  match c.release with
  | none => .refuse invalidNode t
  | some release =>
    if !isUsable release then .refuse invalidNode t
    else
      match t.record? release with
      | none => .refuse tableFull t
      | some t =>
        let text := s!"spin-table: core {Text.hex release.hwId.toNat} released at " ++
          release.addr.display
        { Answer.accept t with
          log := [{ level := .debug, target := "lode_pal::spin_table", text }] }

/-- The start of a core, before its first step, or why the core cannot be started. -/
def startFor (t : SpinTable) (hwId : UInt64) (entry : PhysAddr) (context : UInt64) :
    Except DriverError Start :=
  match t.releaseAddr hwId with
  | none => .error ⟨noRelease⟩
  | some release =>
    if context = 0 then .error ⟨invalidNode⟩ else .ok { release, entry := entry.raw, context }

/-- Starts a core. A mailbox that is still full is waited for, which ends when the core released
before has left it. -/
def start (hwId : UInt64) (entry : PhysAddr) (context : UInt64) (t : SpinTable) :
    Answer SpinTable :=
  match t.startFor hwId entry context with
  | .error e => { result := .error e, state := t }
  | .ok start =>
    { Answer.accept { t with handover := start.run Start.length t.handover.settle } with
      executed := t.wakeUp }

/-- The driver. -/
def driver : Driver SpinTable := { name := "spin-table", probe, start }

end SpinTable

end BootLoader.Bringup
