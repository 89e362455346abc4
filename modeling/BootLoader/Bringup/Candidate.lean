import BootLoader.DeviceTree.Cores

/-!
# Candidates for bring-up

A device tree says how secondary cores are started by what its nodes are compatible with: a node of
the firmware, or of the cores themselves. Each such text is a candidate that may select a bring-up
driver. After all of them come the cores with a release address, each as a candidate of its own that
has the core's enable method as its text.
-/

namespace BootLoader.Bringup

open DeviceTree (Blob Reader Stream readCells)

/-- The word that a parked core watches. -/
structure Release where
  /-- the hardware id of the core -/
  hwId : UInt64
  /-- where the word is -/
  addr : PhysAddr
  deriving DecidableEq, Repr

/-- What a device tree says to a bring-up driver. -/
structure Candidate where
  /-- the text that selects a driver -/
  compatible : String
  /-- how calls reach the firmware, if the node says so -/
  method : Option String := none
  /-- the release address, if this is a core that has one -/
  release : Option Release := none
  deriving DecidableEq, Repr

variable {β ν : Type} (reader : Reader β ν)

namespace Candidate

/-- The candidates of a node: one for each text that it is compatible with. -/
def ofNode (node : ν) : List Candidate :=
  (reader.compatibles node).map fun compatible =>
    { compatible, method := reader.text? node "method" }

/-- The candidate of a core with a release address, where addresses of cores have `cells` words. The
value of a release address is a single number. -/
def ofCore? (cells : Nat) (node : ν) : Option Candidate := do
  let compatible ← reader.text? node "enable-method"
  let hwId ← reader.hwId? node cells
  let value ← reader.property? node "cpu-release-addr"
  let addr ← readCells value (value.length / 4)
  return { compatible, release := some ⟨hwId, ⟨addr⟩⟩ }

/-- The candidates of the cores under the node `/cpus`. -/
def ofCores (cpus : ν) : Stream Candidate :=
  match reader.addressCells cpus with
  | .error fault => .faulty fault
  | .ok cells => (reader.children cpus).flatMap fun node => (ofCore? reader cells node).toList

end Candidate

/-- All candidates in a blob: those of every node in document order, and then those of the cores. The
cores' node is looked for first. -/
def candidates (b : β) : Stream Candidate :=
  match reader.underRoot? b "cpus" with
  | .error fault => .faulty fault
  | .ok cpus =>
    let all := (reader.nodes b).flatMap (Candidate.ofNode reader)
    match cpus with
    | none => all
    | some node => all.append (Candidate.ofCores reader node)

/-- The candidates that the reader of blobs finds. -/
def candidatesOf (b : Blob) : Stream Candidate := candidates Blob.reader b

end BootLoader.Bringup
