import BootLoader.Boot.Handoff
import BootLoader.Bringup.Registry
import BootLoader.Core.Map

/-!
# The platform

What the loader knows about the machine: where the device tree is, which cores there are, and which
driver starts them. All of it comes from the device tree. A tree that is missing or cannot be read
is no reason to give up: the boot goes on with the primary core alone.
-/

namespace BootLoader.Boot

open Bringup (Driver Registry)
open DeviceTree (Blob Reader TreeError)
open Journal (Record)

/-- The size in bytes of the largest device tree whose cores are looked at. -/
def maxTreeSize : Nat := 0x200000

/-- What the loader knows about the machine. -/
structure Platform (σ : Type) where
  /-- where the device tree is -/
  tree : TreeLocation
  /-- the cores -/
  cores : CoreMap
  /-- the bring-up driver, if there are secondaries -/
  driver : Option (Driver σ) := none

/-- The primary core alone. -/
def Platform.single {σ : Type} (primaryHw : UInt64) (tree : TreeLocation) : Platform σ :=
  { tree, cores := .single primaryHw }

/-- What looking at a device tree gives. -/
structure Discovery (σ : Type) where
  /-- the platform, or why there is none -/
  outcome : Outcome BootError (Platform σ)
  /-- the state of the drivers -/
  drivers : σ
  /-- what was said -/
  log : List Record := []

namespace Discovery

variable {σ β ν : Type}

/-- A record about the platform. -/
def record (level : Journal.Level) (text : String) : Record :=
  { level, target := "lode_boot::platform", text }

/-- The same discovery with more said before it. -/
def after (said : List Record) (d : Discovery σ) : Discovery σ := { d with log := said ++ d.log }

/-- The driver for the cores of a tree, which has to be there if there are secondaries. -/
def chooseDriver (registry : Registry σ) (reader : Reader β ν) (b : β) (tree : TreeLocation)
    (cores : CoreMap) (drivers : σ) : Discovery σ :=
  if cores.others.isEmpty then { outcome := .ok { tree, cores }, drivers }
  else
    let candidates := Bringup.candidates reader b
    let choice := registry.resolve drivers candidates.items
    { outcome :=
        match candidates.fault, choice.chosen with
        | some fault, _ => .fault fault
        | none, none => .refuse .noSmpDriver
        | none, some (driver, _) => .ok { tree, cores, driver := some driver }
      drivers := choice.state
      log := choice.log }

/-- The platform with the listed cores, of which there is room for `room`. -/
def ofCores (room : Nat) (registry : Registry σ) (primaryHw : UInt64) (reader : Reader β ν) (b : β)
    (tree : TreeLocation) (ids : List UInt64) (drivers : σ) : Discovery σ :=
  match CoreMap.assign room primaryHw ids with
  | .error e => { outcome := .refuse e, drivers }
  | .ok cores =>
    let text := s!"{cores.count} core(s), primary hw id {Text.hex primaryHw.toNat}"
    (chooseDriver registry reader b tree cores drivers).after [record .info text]

/-- The platform that a blob describes. The cores of a blob that is too large are not looked at, nor
any by a loader for one core; cores that cannot be listed count as none. -/
def ofBlob (smp : Bool) (room : Nat) (registry : Registry σ) (primaryHw : UInt64)
    (reader : Reader β ν) (b : β) (phys : PhysAddr) (drivers : σ) : Discovery σ :=
  let size := reader.totalSize b
  let tree : TreeLocation := ⟨phys, UInt64.ofNat size⟩
  let found := record .info s!"device tree at {phys.display} ({size} bytes)"
  after [found] <|
    if maxTreeSize < size then
      { outcome := .ok (.single primaryHw tree), drivers
        log := [record .warn
          s!"device tree larger than {Text.hex maxTreeSize}, ignoring its cores"] }
    else if !smp then { outcome := .ok (.single primaryHw tree), drivers }
    else
      match (reader.cores b).within room with
      | .error (.fault fault) => { outcome := .fault fault, drivers }
      | .error (.refused (.tooManyCores found)) =>
        { outcome := .refuse (.tooManyCores found room), drivers }
      | .error (.refused e) =>
        (ofCores room registry primaryHw reader b tree [] drivers).after
          [record .warn s!"cannot list cores: {e.message}"]
      | .ok ids => ofCores room registry primaryHw reader b tree ids drivers

/-- The platform that the tree at `phys` describes, where memory has `memory` from there on. -/
def ofMemory (smp : Bool) (room : Nat) (registry : Registry σ) (primaryHw : UInt64)
    (memory : DeviceTree.Memory) (phys : PhysAddr) (drivers : σ) : Discovery σ :=
  if phys.isNull then
    { outcome := .ok (.single primaryHw .none), drivers
      log := [record .warn "no device tree, booting the primary core only"] }
  else
    match Blob.atStart? memory with
    | none =>
      let text := s!"device tree at {phys.display}: {TreeError.invalidBlob.message}, " ++
        "booting the primary core only"
      { outcome := .ok (.single primaryHw ⟨phys, 0⟩), drivers, log := [record .warn text] }
    | some b => ofBlob smp room registry primaryHw Blob.reader b phys drivers

end Discovery

end BootLoader.Boot
