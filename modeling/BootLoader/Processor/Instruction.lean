import BootLoader.Text.Hex

/-!
# Processor instructions

The instructions that the loader executes for their effect beyond memory: barriers, invalidations,
writes of system registers, and calls to the firmware with the argument registers that the firmware
reads.
-/

namespace BootLoader.Processor

/-- The AArch64 system registers that the loader writes. -/
inductive SystemRegister where
  /-- memory attributes -/
  | mair
  /-- paging control -/
  | tcr
  /-- root of the low half -/
  | ttbr0
  /-- root of the high half -/
  | ttbr1
  /-- system control -/
  | sctlr
  deriving DecidableEq, Repr

/-- The name of a system register in assembly text. -/
def SystemRegister.name : SystemRegister → String
  | mair => "MAIR_EL1"
  | tcr => "TCR_EL1"
  | ttbr0 => "TTBR0_EL1"
  | ttbr1 => "TTBR1_EL1"
  | sctlr => "SCTLR_EL1"

/-- An executed instruction. -/
inductive Instruction where
  | isb
  | dsbIsh
  | dsbNsh
  | dsbSy
  | tlbiAll
  | wfi
  | sev
  | fenceRw
  | fenceI
  | sfenceVma
  /-- a system register takes a value -/
  | writeSystem (register : SystemRegister) (value : UInt64)
  /-- the page table root register `satp` takes a value -/
  | writeSatp (value : UInt64)
  /-- a hypervisor call with the registers x0 to x3 -/
  | hvc (arguments : List UInt64)
  /-- a secure monitor call with the registers x0 to x3 -/
  | smc (arguments : List UInt64)
  /-- a supervisor call to the firmware with the registers a0, a1, a2, a6 and a7 -/
  | ecall (arguments : List UInt64)
  deriving DecidableEq, Repr

namespace Instruction

/-- The assembly text of an instruction; the arguments of a firmware call are not part of it. -/
def text : Instruction → String
  | isb => "isb"
  | dsbIsh => "dsb ish"
  | dsbNsh => "dsb nsh"
  | dsbSy => "dsb sy"
  | tlbiAll => "tlbi vmalle1"
  | wfi => "wfi"
  | sev => "sev"
  | fenceRw => "fence rw, rw"
  | fenceI => "fence.i"
  | sfenceVma => "sfence.vma"
  | writeSystem register value => s!"msr {register.name}, {Text.hex value.toNat}"
  | writeSatp value => s!"csrw satp, {Text.hex value.toNat}"
  | hvc _ => "hvc #0"
  | smc _ => "smc #0"
  | ecall _ => "ecall"

/-- The argument registers of a firmware call. -/
def arguments? : Instruction → Option (List UInt64)
  | hvc arguments | smc arguments | ecall arguments => some arguments
  | _ => none

end Instruction

/-- A supervisor call of function `function` of the extension `extension`. -/
def supervisorCall (extension function a0 a1 a2 : UInt64) : Instruction :=
  .ecall [a0, a1, a2, function, extension]

/-- The supervisor call that prints one byte on the firmware's console. -/
def consoleCall (byte : UInt8) : Instruction := supervisorCall 1 0 byte.toUInt64 0 0

end BootLoader.Processor
