import BootLoader.Bringup.Driver
import BootLoader.Bringup.Firmware

/-!
# Bring-up through the supervisor interface

RISC-V firmware starts a hart with one call of its hart state extension. There is nothing to
configure.
-/

namespace BootLoader.Bringup

/-- The error codes of the supervisor interface. -/
inductive SbiError where
  | failed
  | notSupported
  | invalidParam
  | denied
  | invalidAddress
  | alreadyAvailable
  | alreadyStarted
  | alreadyStopped
  deriving DecidableEq, Repr

namespace SbiError

/-- The number of an error. -/
def code : SbiError → Int
  | failed => -1
  | notSupported => -2
  | invalidParam => -3
  | denied => -4
  | invalidAddress => -5
  | alreadyAvailable => -6
  | alreadyStarted => -7
  | alreadyStopped => -8

/-- The name of an error. -/
def name : SbiError → String
  | failed => "Failed"
  | notSupported => "NotSupported"
  | invalidParam => "InvalidParam"
  | denied => "Denied"
  | invalidAddress => "InvalidAddress"
  | alreadyAvailable => "AlreadyAvailable"
  | alreadyStarted => "AlreadyStarted"
  | alreadyStopped => "AlreadyStopped"

/-- The errors in the order of their numbers. -/
def all : List SbiError :=
  [failed, notSupported, invalidParam, denied, invalidAddress, alreadyAvailable, alreadyStarted,
    alreadyStopped]

/-- The error that a word other than zero stands for; a number that is no error's counts as a
failure. -/
def ofReturn (value : Int) : SbiError := (all.find? (·.code == value)).getD failed

end SbiError

namespace Hsm

/-- The number of the hart state extension. -/
def extension : UInt64 := 0x48534d

/-- The number of the function that starts a hart. -/
def startFunction : UInt64 := 0

/-- Whether a text is that of a hart's node. -/
def handles (compatible : String) : Bool := compatible == "riscv"

/-- Starts a hart. -/
def start (hwId : UInt64) (entry : PhysAddr) (context : UInt64) (f : Firmware) : Answer Firmware :=
  let reply := f.call SbiError.notSupported.code
    (Processor.supervisorCall extension startFunction hwId entry.raw context)
  { result := if reply.value = 0 then .ok () else .error ⟨(SbiError.ofReturn reply.value).code⟩
    state := reply.firmware
    executed := reply.executed }

/-- The driver; its state is the firmware. -/
def driver : Driver Firmware := { name := "sbi-hsm", probe := fun _ f => .accept f, start }

end Hsm

end BootLoader.Bringup
