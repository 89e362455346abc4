import BootLoader.Failure

/-!
# Readers of device trees

The loader does not look at the bytes of a device tree itself. It asks a reader for the nodes of the
tree and for what they say (`Reader`), and what it makes of the answers does not depend on how the
tree is laid out. Nodes become known one after the other, and a reader may find only on the way that
a blob is broken; so the nodes that it gives are a stream, which may end in a fault after some.
-/

namespace BootLoader.DeviceTree

/-- Items that become known one after the other, and the fault that ends them, if one does. -/
structure Stream (α : Type) where
  /-- the items before the end -/
  items : List α
  /-- the fault that ends them -/
  fault : Option Fault := none
  deriving Repr

namespace Stream

variable {α β : Type}

/-- No items, and a fault. -/
def faulty (f : Fault) : Stream α := ⟨[], some f⟩

/-- One more item at the front. -/
def cons (a : α) (s : Stream α) : Stream α := { s with items := a :: s.items }

/-- The items of one stream and then those of another, which are not asked for after a fault. -/
def append (s t : Stream α) : Stream α :=
  match s.fault with
  | none => ⟨s.items ++ t.items, t.fault⟩
  | some _ => s

/-- The items that the items stand for. -/
def flatMap (f : α → List β) (s : Stream α) : Stream β := ⟨s.items.flatMap f, s.fault⟩

end Stream

/-- The number that big-endian bytes stand for. -/
def bigEndian (bytes : List UInt8) : Nat := bytes.foldl (fun n b => n * 256 + b.toNat) 0

/-- The name of a node without the unit address after `@`. -/
def baseName (name : String) : String := String.ofList (name.toList.takeWhile (· != '@'))

/-- How blobs of the type `β`, whose nodes are of the type `ν`, are read. -/
structure Reader (β ν : Type) where
  /-- the size of a blob in bytes -/
  totalSize : β → Nat
  /-- the child of the root whose name without unit address is the given one, if there is one -/
  underRoot? : β → String → Except Fault (Option ν)
  /-- every node in document order -/
  nodes : β → Stream ν
  /-- the name of a node with its unit address -/
  name : ν → String
  /-- the value of the property with a name -/
  property? : ν → String → Option (List UInt8)
  /-- the text that a value stands for -/
  textValue? : List UInt8 → Option String
  /-- the texts that a node says it is compatible with -/
  compatibles : ν → List String
  /-- the number of words of the addresses of a node's children -/
  addressCells : ν → Except Fault Nat
  /-- the children of a node in document order -/
  children : ν → Stream ν

/-- The text of the property with a name. -/
def Reader.text? {β ν : Type} (reader : Reader β ν) (node : ν) (name : String) : Option String :=
  (reader.property? node name).bind reader.textValue?

end BootLoader.DeviceTree
