import BootLoader.Journal.Line
import BootLoader.Processor.Instruction

/-!
# The boot console

Console bytes go nowhere, to a PL011, or to the firmware's console call. A line feed goes out as a
carriage return and a line feed. A PL011 takes a byte only when its transmit queue is not full, so
its flag register is read before every byte until it says so; how often it still says "full" is part
of the state of the device.
-/

namespace BootLoader.Journal

open Processor (Instruction)

/-- Where console bytes go. -/
inductive Sink where
  /-- they are dropped -/
  | none
  /-- to the PL011 with its registers at the given address; they are dropped when it is zero -/
  | pl011 (base : UInt64)
  /-- to the firmware, one call for each byte -/
  | firmware
  deriving DecidableEq, Repr

/-- The console: where bytes go, and the PL011 that may receive them. -/
structure Console where
  /-- where bytes go -/
  sink : Sink := .none
  /-- how many more reads of the flag register will report a full queue -/
  busyReads : Nat := 0
  /-- the bytes that reached the PL011 -/
  sent : ByteArray := ByteArray.empty
  /-- how many reads of the flag register reported a full queue -/
  polls : Nat := 0
  /-- the instructions executed to reach the firmware -/
  executed : List Instruction := []

namespace Console

/-- The bytes that go out for a text. -/
def encode (text : String) : List UInt8 :=
  text.toUTF8.data.toList.flatMap fun b => if b == 0x0a then [0x0d, 0x0a] else [b]

/-- Sends one byte to where bytes go. -/
def put (c : Console) (byte : UInt8) : Console :=
  match c.sink with
  | .none => c
  | .pl011 0 => c
  | .pl011 _ =>
    { c with sent := c.sent.push byte, polls := c.polls + c.busyReads, busyReads := 0 }
  | .firmware => { c with executed := c.executed ++ [Processor.consoleCall byte] }

/-- Sends a text. -/
def puts (c : Console) (text : String) : Console := (encode text).foldl put c

/-- Shows a record as a line, if its level is shown. -/
def log (c : Console) (r : Record) : Console := if r.level.isShown then c.puts r.line else c

/-- The console after what came out of it was taken away. -/
def drained (c : Console) : Console :=
  { c with sent := ByteArray.empty, polls := 0, executed := [] }

/-- The characters that reached the PL011. -/
def text (c : Console) : String := String.ofList (charsFrom c.sent 0)

end Console

/-- The characters that a list of records leaves on a console. -/
def transcript (records : List Record) : String :=
  (records.foldl Console.log { sink := .pl011 1 }).text

end BootLoader.Journal
