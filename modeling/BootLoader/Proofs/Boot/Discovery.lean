import BootLoader.Boot.Platform
import BootLoader.Proofs.Address
import BootLoader.Proofs.Bringup.Parking

/-!
# The platform of a machine with parked cores

A device tree lists the cores in one place and is searched for their release words in another; the
two meet in the hardware id of a core. On a machine whose firmware cannot be called, discovery ends
with the spin table as the driver, and the spin table has the release word of exactly those
secondaries that the tree has one for (`Discovery.learns_ofBlob`). This holds of every reader, for
what it says of the tree.
-/

namespace BootLoader.Boot.Discovery

open Bringup (Candidate Conduit Psci Registry SpinTable candidates maxReleases parked?)
open DeviceTree (Blob Node Reader Token)

variable {β ν : Type} {reader : Reader β ν} {b : β}

/-! ## The way to the choice of a driver -/

section

variable {σ : Type} {room : Nat} {registry : Registry σ} {primaryHw : UInt64} {tree : TreeLocation}
  {drivers : σ} {platform : Platform σ}

/-- A platform with secondaries has a driver, which is the one that the candidates of the tree
select. -/
theorem chooseDriver_ok {cores : CoreMap}
    (h : (chooseDriver registry reader b tree cores drivers).outcome = .ok platform)
    (hothers : cores.others ≠ []) :
    (candidates reader b).fault = none ∧
      platform.driver =
        (registry.resolve drivers (candidates reader b).items).chosen.map (·.1) ∧
      (chooseDriver registry reader b tree cores drivers).drivers =
        (registry.resolve drivers (candidates reader b).items).state := by
  have hsome : cores.others.isEmpty = false := by simpa using hothers
  simp only [chooseDriver, hsome, Bool.false_eq_true, if_false] at h ⊢
  split at h
  next => cases h
  next => cases h
  next hfault hchosen =>
    cases h
    exact ⟨hfault, by rw [hchosen]; rfl, trivial⟩

/-- The driver is chosen for the cores of the platform. -/
theorem cores_chooseDriver {cores : CoreMap}
    (h : (chooseDriver registry reader b tree cores drivers).outcome = .ok platform) :
    platform.cores = cores := by
  unfold chooseDriver at h
  split at h
  next =>
    cases h
    rfl
  next =>
    dsimp only at h
    split at h <;> cases h
    rfl

/-- A platform has the cores that the ids are assigned to, and the driver that is chosen for
them. -/
theorem ofCores_ok {ids : List UInt64}
    (h : (ofCores room registry primaryHw reader b tree ids drivers).outcome = .ok platform) :
    (chooseDriver registry reader b tree platform.cores drivers).outcome = .ok platform ∧
      (ofCores room registry primaryHw reader b tree ids drivers).drivers =
        (chooseDriver registry reader b tree platform.cores drivers).drivers := by
  unfold ofCores at h ⊢
  cases hassign : CoreMap.assign room primaryHw ids with
  | error e =>
    rw [hassign] at h
    cases h
  | ok cores =>
    rw [hassign] at h
    rw [cores_chooseDriver h]
    exact ⟨h, rfl⟩

/-- A platform with secondaries is one whose driver is chosen by the tree. -/
theorem ofBlob_ok {smp : Bool} {phys : PhysAddr}
    (h : (ofBlob smp room registry primaryHw reader b phys drivers).outcome = .ok platform)
    (hothers : platform.cores.others ≠ []) :
    ∃ tree, (chooseDriver registry reader b tree platform.cores drivers).outcome = .ok platform ∧
      (ofBlob smp room registry primaryHw reader b phys drivers).drivers =
        (chooseDriver registry reader b tree platform.cores drivers).drivers := by
  refine ⟨⟨phys, UInt64.ofNat (reader.totalSize b)⟩, ?_⟩
  unfold ofBlob at h ⊢
  simp only [after] at h ⊢
  split at h
  next =>
    -- the cores of a tree that is too large are not looked at
    cases h
    exact absurd rfl hothers
  next hsize =>
    rw [if_neg hsize]
    split at h
    next =>
      cases h
      exact absurd rfl hothers
    next hsmp =>
      rw [if_neg hsmp]
      split at h
      next => cases h
      next => cases h
      next => exact ofCores_ok h
      next => exact ofCores_ok h

end

/-! ## Parked cores -/

/-- Whether a blob describes a machine with parked cores: the children of `cpus` with a release word
are as many as a spin table has room for, and the firmware cannot be called. -/
structure Parks (reader : Reader β ν) (b : β) (cpus : ν) (cells : Nat) : Prop where
  /-- this is the node of the cores -/
  found : reader.underRoot? b "cpus" = .ok (some cpus)
  /-- addresses of cores have `cells` words -/
  cells_eq : reader.addressCells cpus = .ok cells
  /-- no node of the firmware says how it is called -/
  firmware : ∀ node ∈ (reader.nodes b).items, ∀ compatible ∈ reader.compatibles node,
    Psci.handles compatible = true → (reader.text? node "method").bind Conduit.ofMethod? = none
  /-- there are parked cores -/
  ne_nil : (reader.children cpus).items.filterMap (parked? reader cells) ≠ []
  /-- there is room for all of them -/
  length_le : ((reader.children cpus).items.filterMap (parked? reader cells)).length ≤ maxReleases
  /-- they are different cores -/
  nodup : (((reader.children cpus).items.filterMap (parked? reader cells)).map (·.hwId)).Nodup
  /-- their release words can be written -/
  usable : ∀ release ∈ (reader.children cpus).items.filterMap (parked? reader cells),
    release.addr.toNat ≠ 0 ∧ release.addr.toNat % 8 = 0

/-- The candidates in a blob that can be read to its end. -/
theorem Parks.items_candidates {cpus : ν} {cells : Nat} (h : Parks reader b cpus cells)
    (hfault : (candidates reader b).fault = none) :
    (candidates reader b).items =
      (reader.nodes b).items.flatMap (Candidate.ofNode reader) ++
        (reader.children cpus).items.filterMap (Candidate.ofCore? reader cells) := by
  rw [List.filterMap_eq_flatMap_toList]
  unfold candidates at hfault ⊢
  simp only [h.found, Candidate.ofCores, h.cells_eq] at hfault ⊢
  unfold DeviceTree.Stream.append at hfault ⊢
  -- the cores are looked at when the nodes have been without a fault
  split at hfault
  next => rfl
  next hnodes => simp [hnodes] at hfault

/-- What discovery is for on a machine with parked cores. -/
structure Learns (reader : Reader β ν) (platform : Platform (Psci × SpinTable)) (t : SpinTable)
    (cells : Nat) (cpus : ν) : Prop where
  /-- the spin table starts the secondaries -/
  driver : platform.driver = some Registry.spinTable
  /-- it has the release word of every secondary that the tree has one for -/
  known : ∀ core ∈ platform.cores.secondaries, ∀ node ∈ (reader.children cpus).items, ∀ release,
    parked? reader cells node = some release → release.hwId = core.hwId →
      t.releaseAddr core.hwId = some release.addr
  /-- and it has none for any other secondary -/
  unknown : ∀ core ∈ platform.cores.secondaries, t.releaseAddr core.hwId = none ↔
    ∀ node ∈ (reader.children cpus).items, ∀ release, parked? reader cells node = some release →
      release.hwId ≠ core.hwId

/-- On a machine with parked cores whose firmware cannot be called, the spin table is the driver of
the secondaries, and has the release words that the tree has for them. -/
theorem learns_ofBlob {cpus : ν} {cells : Nat} (h : Parks reader b cpus cells) (smp : Bool)
    (room : Nat) (primaryHw : UInt64) (phys : PhysAddr) (p : Psci) {t : SpinTable}
    (hfresh : t.slots = Vector.replicate maxReleases none)
    {platform : Platform (Psci × SpinTable)}
    (hplatform : (ofBlob smp room Registry.arm primaryHw reader b phys (p, t)).outcome = .ok platform)
    (hothers : platform.cores.others ≠ []) :
    Learns reader platform (ofBlob smp room Registry.arm primaryHw reader b phys (p, t)).drivers.2
      cells cpus := by
  obtain ⟨tree, hchoose, hdrivers⟩ := ofBlob_ok hplatform hothers
  obtain ⟨hfault, hdriver, hstate⟩ := chooseDriver_ok hchoose hothers
  have hlearned : Registry.Learned p ((reader.children cpus).items.filterMap (parked? reader cells))
      (Registry.arm.resolve (p, t) (candidates reader b).items) := by
    rw [h.items_candidates hfault]
    refine Registry.resolve_parked (SpinTable.lists_nil hfresh) ?_ h.nodup h.length_le ?_
    · -- a candidate of a node has no release word, and cannot be used to call the firmware
      intro c hc
      obtain ⟨node, hnode, hof⟩ := List.mem_flatMap.mp hc
      obtain ⟨compatible, hcompatible, rfl⟩ := List.mem_map.mp hof
      exact ⟨h.firmware node hnode compatible hcompatible, fun _ => rfl⟩
    · intro release hrelease
      obtain ⟨hnull, haligned⟩ := h.usable release hrelease
      have hsome : release.addr.isNull = false := by
        simpa [Address.isNull, Address.toNat, ← UInt64.toNat_inj] using hnull
      have hwhole : release.addr.isAligned 3 = true :=
        (Address.isAligned_iff (by decide)).mpr haligned
      simp [SpinTable.isUsable, hsome, hwhole]
  rw [hdrivers, hstate]
  constructor
  · rw [hdriver, hlearned.chosen]
    simp [h.ne_nil]
  · rintro core - node hnode release hparked hid
    rw [← hid]
    exact hlearned.lists.releaseAddr_of_mem (List.mem_filterMap.mpr ⟨node, hnode, hparked⟩)
  · rintro core -
    rw [hlearned.lists.releaseAddr_eq_none]
    simp only [List.mem_filterMap]
    constructor
    · exact fun hnone node hnode release hparked => hnone release ⟨node, hnode, hparked⟩
    · rintro hnone release ⟨node, hnode, hparked⟩
      exact hnone node hnode release hparked

/-- The tree of a machine with two cores, of which the second is parked, in words. -/
def pairWords : List UInt32 :=
  [0xd00dfeed, 0x000000f8, 0x00000028, 0x000000c4, 0x00000028, 0x00000011, 0x00000010, 0x00000000,
    0x00000034, 0x0000009c, 0x00000001, 0x00000000, 0x00000001, 0x63707573, 0x00000000,
    0x00000003, 0x00000004, 0x00000000, 0x00000001, 0x00000001, 0x63707540, 0x30000000,
    0x00000003, 0x00000004, 0x0000000f, 0x00000000, 0x00000002, 0x00000001, 0x63707540,
    0x31000000, 0x00000003, 0x00000004, 0x0000000f, 0x00000001, 0x00000003, 0x0000000b,
    0x00000013, 0x7370696e, 0x2d746162, 0x6c650000, 0x00000003, 0x00000008, 0x00000021,
    0x00000000, 0x000000d8, 0x00000002, 0x00000002, 0x00000002, 0x00000009, 0x23616464,
    0x72657373, 0x2d63656c, 0x6c730072, 0x65670065, 0x6e61626c, 0x652d6d65, 0x74686f64,
    0x00637075, 0x2d72656c, 0x65617365, 0x2d616464, 0x72000000]

/-- That tree. -/
def pairBlob : Blob where
  memory.bytes.data := (pairWords.flatMap fun (w : UInt32) =>
    [(w >>> 24).toUInt8, (w >>> 16).toUInt8, (w >>> 8).toUInt8, w.toUInt8]).toArray
  length := 4 * pairWords.length

/-- Its tokens. -/
def pairTokens : List Token :=
  [.beginNode [], .beginNode "cpus".toUTF8.toList, .property "#address-cells" [0, 0, 0, 1],
    .beginNode "cpu@0".toUTF8.toList, .property "reg" [0, 0, 0, 0], .endNode,
    .beginNode "cpu@1".toUTF8.toList, .property "reg" [0, 0, 0, 1],
    .property "enable-method" ("spin-table".toUTF8.toList ++ [0]),
    .property "cpu-release-addr" [0, 0, 0, 0, 0, 0, 0, 0xd8], .endNode, .endNode, .endNode,
    .finish]

/-- Its node of the cores. -/
def pairCpus : Node := ⟨"cpus", pairTokens.drop 2⟩

/-- The tree describes a machine with parked cores. -/
theorem parks_pair : Parks Blob.reader pairBlob pairCpus 1 := by
  have hparked : (Blob.reader.children pairCpus).items.filterMap (parked? Blob.reader 1) =
      [⟨1, ⟨0xd8⟩⟩] := by
    decide +kernel
  exact
    { found := by decide +kernel
      cells_eq := by decide +kernel
      firmware := by decide +kernel
      ne_nil := by simp [hparked]
      length_le := by rw [hparked]; decide
      nodup := by rw [hparked]; decide
      usable := by rw [hparked]; decide }

/-- A value that is computed from an outcome is computed from what it gives. -/
theorem exists_ok_of_map {ε α β : Type} {o : Outcome ε α} {f : α → β} {value : β}
    (h : o.toOption.map f = some value) : ∃ a, o = .ok a ∧ f a = value := by
  cases o with
  | error stop => cases h
  | ok a => exact ⟨a, rfl, Option.some.inj h⟩

/-- When a third core discovers that machine, the spin table knows one of the two. -/
theorem learns_ofBlob_pair : ∃ platform : Platform (Psci × SpinTable),
    (ofBlob true 4 Registry.arm 2 Blob.reader pairBlob ⟨0x1000⟩ ({}, {})).outcome = .ok platform ∧
      platform.cores.others = [0, 1] ∧
      Learns Blob.reader platform
        (ofBlob true 4 Registry.arm 2 Blob.reader pairBlob ⟨0x1000⟩ ({}, {})).drivers.2 1
        pairCpus := by
  have hcores :
      ((ofBlob true 4 Registry.arm 2 Blob.reader pairBlob ⟨0x1000⟩ ({}, {})).outcome.toOption.map
        (·.cores.others)) = some [0, 1] := by
    decide +kernel
  obtain ⟨platform, hplatform, hothers⟩ := exists_ok_of_map hcores
  exact ⟨platform, hplatform, hothers, learns_ofBlob parks_pair true 4 2 ⟨0x1000⟩ {} rfl hplatform
    (by simp [hothers])⟩

end BootLoader.Boot.Discovery
