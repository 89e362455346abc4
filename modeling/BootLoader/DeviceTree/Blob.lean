import BootLoader.DeviceTree.Token

/-!
# Device tree blobs

A blob starts with a header of ten big-endian words, which give its size and the places of its
blocks. A blob can be looked at when its header is whole, its magic number is right and it is as
long as its header says. Its blocks are looked for only when a node is, so a blob whose structure
block is out of bounds has a size all the same.
-/

namespace BootLoader.DeviceTree

/-- Bytes in memory: the given ones, and zeros after them. -/
structure Memory where
  /-- the bytes at the start -/
  bytes : ByteArray

namespace Memory

/-- The byte at a distance from the start. -/
def byteAt (m : Memory) (i : Nat) : UInt8 := if h : i < m.bytes.size then m.bytes[i] else 0

/-- The bytes from `start` on. -/
def slice (m : Memory) (start length : Nat) : List UInt8 :=
  (List.range length).map fun i => m.byteAt (start + i)

/-- The word at a distance from the start. -/
def wordAt (m : Memory) (i : Nat) : Nat := bigEndian (m.slice i 4)

end Memory

/-- The length of the header in bytes. -/
def headerSize : Nat := 40

/-- The first word of every blob. -/
def magic : Nat := 0xd00dfeed

/-- A blob that can be looked at. -/
structure Blob where
  /-- where it lies -/
  memory : Memory
  /-- how many bytes may be looked at -/
  length : Nat

namespace Blob

/-- The size that the header gives. -/
def totalSize (b : Blob) : Nat := b.memory.wordAt 4

/-- The blob in the first `length` bytes of a memory, if there is one. -/
def ofMemory? (memory : Memory) (length : Nat) : Option Blob :=
  if headerSize ≤ length && memory.wordAt 0 == magic && memory.wordAt 4 ≤ length then
    some ⟨memory, length⟩
  else none

/-- The blob that fills a run of bytes. -/
def ofBytes? (bytes : ByteArray) : Option Blob := ofMemory? ⟨bytes⟩ bytes.size

/-- The blob at the start of a memory, which is as long as its header says. -/
def atStart? (memory : Memory) : Option Blob := ofMemory? memory (memory.wordAt 4)

/-- The block that the header says is at `start` and has `length` bytes, if the blob holds it. -/
def block? (b : Blob) (start length : Nat) : Option (List UInt8) :=
  if start + length ≤ b.length then some (b.memory.slice start length) else none

/-- The strings block. -/
def strings? (b : Blob) : Option (List UInt8) := b.block? (b.memory.wordAt 12) (b.memory.wordAt 32)

/-- The tokens of the structure block. -/
def tokens (b : Blob) : Except Fault (List Token) :=
  match b.block? (b.memory.wordAt 8) (b.memory.wordAt 36) with
  | none => .error .malformedTree
  | some structureBlock => .ok (DeviceTree.tokens b.strings? structureBlock)

end Blob

end BootLoader.DeviceTree
