import BootLoader.Core.Identity

/-!
# Stacks and wake-up blocks

Every core has a boot stack and every secondary a wake-up block, both indexed by logical id in
memory that is set aside when the loader is linked. A core's stack grows down from its top, which is
where the next core's stack starts.
-/

namespace BootLoader

/-- The boot stacks: `count` of them, each of `size` bytes, one after the other from `base` on. -/
structure Stacks where
  /-- the address of the first -/
  base : UInt64
  /-- the number of bytes of each -/
  size : Nat
  /-- how many there are -/
  count : Nat
  deriving DecidableEq, Repr

/-- The address where the stack of a core starts, one past its last byte. -/
def Stacks.top (s : Stacks) (logical : Nat) : Option UInt64 :=
  if logical < s.count then some (s.base + UInt64.ofNat ((logical + 1) * s.size)) else none

/-- The wake-up blocks of `n` cores. -/
structure WakeupTable (n : Nat) where
  /-- the address of the first block -/
  base : UInt64
  /-- the blocks -/
  blocks : Vector WakeupBlock n := Vector.replicate n {}
  deriving DecidableEq, Repr

namespace WakeupTable

variable {n : Nat}

/-- The address of the block of a core. -/
def address (t : WakeupTable n) (logical : Nat) : UInt64 :=
  t.base + UInt64.ofNat (WakeupBlock.size * logical)

/-- The block of a core. -/
def get (t : WakeupTable n) (logical : Nat) : Option WakeupBlock := t.blocks[logical]?

/-- The block at an address. -/
def blockAt (t : WakeupTable n) (address : UInt64) : Option WakeupBlock :=
  ((List.range n).find? fun logical => t.address logical == address).bind t.get

/-- The table with the block of a core filled in, and the address of that block. -/
def fill (t : WakeupTable n) (logical : Nat) (block : WakeupBlock) :
    Option (UInt64 × WakeupTable n) :=
  if h : logical < n then some (t.address logical, { t with blocks := t.blocks.set logical block })
  else none

end WakeupTable

end BootLoader
