import BootLoader.Processor.Instruction

/-!
# Firmware calls

The firmware is seen through its calls alone: each executes one instruction and gives a signed word.
Where there is no firmware, a call executes nothing and says that it is not supported.
-/

namespace BootLoader.Bringup

open Processor (Instruction)

/-- The firmware below the loader. -/
inductive Firmware where
  /-- there is none -/
  | absent
  /-- its calls give these words, and zero after them -/
  | answering (results : List Int64)
  deriving DecidableEq, Repr

/-- What a call gives. -/
structure Firmware.Reply where
  /-- the word -/
  value : Int
  /-- the firmware after the call -/
  firmware : Firmware
  /-- the instructions that the call executed -/
  executed : List Instruction

/-- Calls the firmware; `unsupported` is what a call gives where there is none. -/
def Firmware.call (f : Firmware) (unsupported : Int) (call : Instruction) : Firmware.Reply :=
  match f with
  | .absent => ⟨unsupported, .absent, []⟩
  | .answering [] => ⟨0, .answering [], [call]⟩
  | .answering (result :: results) => ⟨result.toInt, .answering results, [call]⟩

end BootLoader.Bringup
