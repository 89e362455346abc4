import BootLoader.Address
import BootLoader.DeviceTree.Node

/-!
# Cores in the device tree

The node `/cpus` has a child for every core. Such a child is named `cpu`, counts unless its status
says that it is disabled, and has the hardware id of the core in its property `reg`, which is as
many words long as `/cpus` says addresses are. `listCores` gives the ids in document order up to the
first child whose id cannot be read.
-/

namespace BootLoader.DeviceTree

/-- Why a device tree does not say what it is asked. -/
inductive TreeError where
  /-- there is no tree -/
  | noAddress
  /-- the tree cannot be looked at -/
  | invalidBlob
  /-- the tree lacks a node -/
  | missingNode (path : String)
  /-- a property is missing or too short -/
  | invalidData
  /-- there are more cores than there is room for -/
  | tooManyCores (found : Nat)
  deriving DecidableEq, Repr

/-- The name of the cause. -/
def TreeError.name : TreeError → String
  | noAddress => "NoDtbAddress"
  | invalidBlob => "InvalidDtb"
  | missingNode _ => "MissingNode"
  | invalidData => "InvalidData"
  | tooManyCores _ => "TooManyCores"

/-- The cause as it is reported. -/
def TreeError.message : TreeError → String
  | noAddress => "no device tree address"
  | invalidBlob => "invalid device tree blob"
  | missingNode path => s!"missing node {path}"
  | invalidData => "malformed property"
  | tooManyCores found => s!"{found} cores listed"

/-- The number in the first `cells` words of a value; numbers have one word or two. -/
def readCells (value : List UInt8) (cells : Nat) : Option UInt64 :=
  if cells = 0 ∨ 2 < cells ∨ value.length < 4 * cells then none
  else some (UInt64.ofNat (bigEndian (value.take (4 * cells))))

namespace Reader

variable {β ν : Type} (reader : Reader β ν)

/-- Whether a node is that of a core. -/
def isCore (node : ν) : Bool := baseName (reader.name node) == "cpu"

/-- Whether the status of a node is absent, no text, or says that the node counts. -/
def isEnabled (node : ν) : Bool :=
  match reader.text? node "status" with
  | none => true
  | some status => status == "okay" || status == "ok"

/-- The hardware id of a core's node, whose addresses have `cells` words. -/
def hwId? (node : ν) (cells : Nat) : Option UInt64 :=
  (reader.property? node "reg").bind (readCells · cells)

end Reader

/-- The cores that a tree lists, as far as it could be read. -/
structure CoreList where
  /-- the hardware ids of the enabled cores, in document order -/
  ids : List UInt64
  /-- why there may be more -/
  problem : Option (Stop TreeError) := none
  deriving Repr

namespace CoreList

variable {β ν : Type}

/-- A list that ends before its first core. -/
def broken (stop : Stop TreeError) : CoreList := ⟨[], some stop⟩

/-- The enabled cores among the children of a node, up to the first whose id cannot be read. -/
def ofChildren (reader : Reader β ν) (cells : Nat) (fault : Option Fault) : List ν → CoreList
  | [] => ⟨[], fault.map .fault⟩
  | node :: nodes =>
    if reader.isCore node && reader.isEnabled node then
      match reader.hwId? node cells with
      | none => broken (.refused .invalidData)
      | some id =>
        let rest := ofChildren reader cells fault nodes
        { rest with ids := id :: rest.ids }
    else ofChildren reader cells fault nodes

/-- The ids, if all could be read and there are at most `room`. -/
def within (cores : CoreList) (room : Nat) : Outcome TreeError (List UInt64) :=
  match cores.problem with
  | some stop => .error stop
  | none =>
    if room < cores.ids.length then .refuse (.tooManyCores cores.ids.length) else .ok cores.ids

end CoreList

/-- The cores that a blob lists. -/
def Reader.cores {β ν : Type} (reader : Reader β ν) (b : β) : CoreList :=
  match reader.underRoot? b "cpus" with
  | .error fault => .broken (.fault fault)
  | .ok none => .broken (.refused (.missingNode "/cpus"))
  | .ok (some cpus) =>
    match reader.addressCells cpus with
    | .error fault => .broken (.fault fault)
    | .ok cells =>
      let children := reader.children cpus
      .ofChildren reader cells children.fault children.items

/-- The cores that the reader of blobs finds. -/
def Blob.cores (b : Blob) : CoreList := reader.cores b

end BootLoader.DeviceTree
