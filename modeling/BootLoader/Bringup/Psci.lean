import BootLoader.Bringup.Driver
import BootLoader.Bringup.Firmware

/-!
# Bring-up through PSCI

The power interface of Arm firmware starts a core with one call. The call is made through the
hypervisor or the secure monitor, as the firmware's node in the device tree says.
-/

namespace BootLoader.Bringup

open Processor (Instruction)

/-- The error codes of the power interface. -/
inductive PsciError where
  | notSupported
  | invalidParameters
  | denied
  | alreadyOn
  | onPending
  | internalFailure
  | notPresent
  | disabled
  | invalidAddress
  deriving DecidableEq, Repr

namespace PsciError

/-- The number of an error. -/
def code : PsciError → Int
  | notSupported => -1
  | invalidParameters => -2
  | denied => -3
  | alreadyOn => -4
  | onPending => -5
  | internalFailure => -6
  | notPresent => -7
  | disabled => -8
  | invalidAddress => -9

/-- The name of an error. -/
def name : PsciError → String
  | notSupported => "NotSupported"
  | invalidParameters => "InvalidParameters"
  | denied => "Denied"
  | alreadyOn => "AlreadyOn"
  | onPending => "OnPending"
  | internalFailure => "InternalFailure"
  | notPresent => "NotPresent"
  | disabled => "Disabled"
  | invalidAddress => "InvalidAddress"

/-- The errors in the order of their numbers. -/
def all : List PsciError :=
  [notSupported, invalidParameters, denied, alreadyOn, onPending, internalFailure, notPresent,
    disabled, invalidAddress]

/-- The error that a word other than zero stands for. The low half of the word counts, as a signed
number; a number that is no error's counts as an internal failure. -/
def ofReturn (value : Int) : PsciError :=
  (all.find? (·.code == value.bmod 0x100000000)).getD internalFailure

end PsciError

/-- How calls reach the firmware. -/
inductive Conduit where
  /-- through the hypervisor -/
  | hvc
  /-- through the secure monitor -/
  | smc
  deriving DecidableEq, Repr

namespace Conduit

/-- The conduit that a node's `method` names. -/
def ofMethod? : String → Option Conduit
  | "hvc" => some hvc
  | "smc" => some smc
  | _ => none

/-- The name of a conduit in diagnostics. -/
def name : Conduit → String
  | hvc => "Hvc"
  | smc => "Smc"

/-- The instruction that calls through a conduit with the given argument registers. -/
def instruction : Conduit → List UInt64 → Instruction
  | hvc => .hvc
  | smc => .smc

end Conduit

/-- The power interface, as the loader uses it. -/
structure Psci where
  /-- how calls reach the firmware -/
  conduit : Conduit := .hvc
  /-- the firmware -/
  firmware : Firmware := .absent
  deriving DecidableEq, Repr

namespace Psci

/-- The texts of firmware nodes whose functions have fixed numbers. -/
def compatibles : List String := ["arm,psci-0.2", "arm,psci-1.0"]

/-- Whether a text is that of a firmware node. -/
def handles (compatible : String) : Bool := compatibles.contains compatible

/-- The number of the function that gives the version. -/
def versionFunction : UInt64 := 0x84000000

/-- The number of the function that starts a core. -/
def startFunction : UInt64 := 0xc4000003

/-- Calls a function of the firmware. -/
def call (p : Psci) (function a b c : UInt64) : Firmware.Reply :=
  p.firmware.call PsciError.notSupported.code (p.conduit.instruction [function, a, b, c])

/-- The major and minor number in what the version function gives; an error has neither. -/
def versionOf (value : Int) : Nat × Nat :=
  if value < 0 then (0, 0) else (value.toNat / 0x10000 % 0x10000, value.toNat % 0x10000)

/-- Asks the firmware for its version. -/
def version (p : Psci) : Firmware.Reply := p.call versionFunction 0 0 0

/-- Takes the conduit of a node into use, if it names one. -/
def probe (c : Candidate) (p : Psci) : Answer Psci :=
  match c.method.bind Conduit.ofMethod? with
  | none => .refuse PsciError.invalidParameters.code p
  | some conduit =>
    let reply := { p with conduit }.version
    let (major, minor) := versionOf reply.value
    { result := .ok ()
      state := { conduit, firmware := reply.firmware }
      log := [{ level := .info, target := "lode_pal::psci",
                text := s!"PSCI {major}.{minor} via {conduit.name}" }]
      executed := reply.executed }

/-- Starts a core. -/
def start (hwId : UInt64) (entry : PhysAddr) (context : UInt64) (p : Psci) : Answer Psci :=
  let reply := p.call startFunction hwId entry.raw context
  { result := if reply.value = 0 then .ok () else .error ⟨(PsciError.ofReturn reply.value).code⟩
    state := { p with firmware := reply.firmware }
    executed := reply.executed }

/-- The driver. -/
def driver : Driver Psci := { name := "psci", probe, start }

end Psci

end BootLoader.Bringup
