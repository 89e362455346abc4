/-!
# Core identities

A core has two numbers. Its hardware id is whatever the platform uses, and may be any word; its
logical id counts the cores of this boot from zero, which is the primary core. A secondary core
finds its identity in a wake-up block, which it reads before it has a stack, so the layout of the
block is fixed: four little-endian words.
-/

namespace BootLoader

/-- The two numbers of a core. -/
structure CoreIdentity where
  /-- the number that the platform uses -/
  hwId : UInt64
  /-- the place among the cores of this boot -/
  logical : Nat
  deriving DecidableEq, Repr, Inhabited

namespace CoreIdentity

/-- The identity of the primary core. -/
def primary (hwId : UInt64) : CoreIdentity := ⟨hwId, 0⟩

/-- Whether this is the primary core. -/
def isPrimary (c : CoreIdentity) : Bool := c.logical == 0

end CoreIdentity

/-- What a secondary core is woken with. -/
structure WakeupBlock where
  /-- the top of the core's stack -/
  stackTop : UInt64 := 0
  /-- its hardware id -/
  hwId : UInt64 := 0
  /-- its logical id -/
  logicalId : UInt64 := 0
  /-- the address of what all cores share -/
  context : UInt64 := 0
  deriving DecidableEq, Repr, Inhabited

namespace WakeupBlock

/-- The words of the block in the order in which they are stored. -/
def words (b : WakeupBlock) : List UInt64 := [b.stackTop, b.hwId, b.logicalId, b.context]

/-- The number of bytes of a word. -/
def wordSize : Nat := 8

/-- The number of bytes of a block. -/
def size : Nat := 4 * wordSize

/-- The distances of the words from the start of the block. -/
def offsets : List Nat := (List.range 4).map (· * wordSize)

/-- The bytes of a word, the lowest first. -/
def bytesOf (word : UInt64) : List UInt8 :=
  (List.range wordSize).map fun i => UInt8.ofNat (word.toNat / (1 <<< (8 * i)))

/-- The bytes of the block. -/
def bytes (b : WakeupBlock) : List UInt8 := b.words.flatMap bytesOf

/-- The identity of the core that is woken with the block. -/
def identity (b : WakeupBlock) : CoreIdentity := ⟨b.hwId, b.logicalId.toNat⟩

end WakeupBlock

end BootLoader
