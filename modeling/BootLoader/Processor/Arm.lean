import BootLoader.Paging.Format
import BootLoader.Processor.Instruction
import BootLoader.Processor.Operation

/-!
# AArch64 processors

A core at EL1 with a 39-bit address space split in two halves: the low half has its root in TTBR0
and holds the self-map, the high half has its root in TTBR1 and holds the kernel window. What a core
is asked about itself comes from three identification registers.
-/

namespace BootLoader.Processor.Arm

open Paging (Format)

/-- The identification registers of a core, as they are read. -/
structure Identification where
  /-- MPIDR_EL1: which core this is -/
  mpidr : UInt64 := 0
  /-- CurrentEL: the exception level -/
  currentEl : UInt64 := 0
  /-- ID_AA64MMFR0_EL1: what the memory system can do -/
  mmfr0 : UInt64 := 0

/-- The affinity fields of MPIDR_EL1. -/
def affinityMask : UInt64 := 0xff00ffffff

/-- The hardware id of a core: the affinity fields, which the firmware and the device tree use. -/
def Identification.hwId (id : Identification) : UInt64 := id.mpidr &&& affinityMask

/-- The exception level that a core runs at. -/
def Identification.exceptionLevel (id : Identification) : Nat := id.currentEl.toNat / 4 % 4

/-- The size of physical addresses as paging control takes it, at most that of 48 bits. -/
def Identification.addressSize (id : Identification) : UInt64 :=
  UInt64.ofNat (min (id.mmfr0.toNat % 16) 5)

/-- Memory attributes: index 0 is normal write-back memory, index 1 is device memory. -/
def mairValue : UInt64 := 0xff

/-- The fields of paging control that do not depend on the core: 39-bit halves of 4 KiB pages,
walked through the caches of the inner domain. -/
def tcrFields : UInt64 :=
  let size := 64 - 39
  let low := size + 0x3000 + 0x400 + 0x100
  let high := size * 0x10000 + 0x80000000 + 0x30000000 + 0x4000000 + 0x1000000
  low + high

/-- Paging control for the given size of physical addresses. -/
def tcrValue (addressSize : UInt64) : UInt64 := tcrFields ||| (addressSize <<< 32)

/-- System control with paging and both caches on, little-endian, without alignment checks. -/
def sctlrValue : UInt64 := 0x30d01805

/-- Drops everything that the core has cached of the page tables. -/
def invalidateAll : List Instruction := [.tlbiAll, .dsbNsh, .isb]

/-- Takes the root tables into use and turns paging on. -/
def enable (id : Identification) (root : RootPair) : List Instruction :=
  [.writeSystem .mair mairValue,
    .writeSystem .tcr (tcrValue id.addressSize),
    .writeSystem .ttbr0 (Format.aarch64.rootRegister root.selfMap),
    .writeSystem .ttbr1 (Format.aarch64.rootRegister root.kernelMap),
    .isb] ++
  invalidateAll ++
  [.writeSystem .sctlr sctlrValue, .dsbSy]

end BootLoader.Processor.Arm
