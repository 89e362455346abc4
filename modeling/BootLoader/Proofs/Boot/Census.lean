import BootLoader.Proofs.Boot.Discovery
import BootLoader.Proofs.Core.Cores
import BootLoader.Proofs.DeviceTree.Listing

/-!
# The cores that a discovery finds

A tree either lists no cores, for one of a few reasons (`Discovery.Unlisted`), or it lists the ids
of those that count. Discovery takes the first for a machine with the primary core alone. In the
second case it looks at how many cores are listed, how many of them have to be started, and whether
there is a driver that can start them, and what comes out is decided by that (`Discovery.Exact`). The
two together are the promise of `Discovery.discovers_ofBlob`, which holds of every reader that gets to
the end of the cores (`Reader.Reports`). Whether it also gets to the end of the candidates matters
only when a driver is needed.
-/

namespace BootLoader.Boot.Discovery

open Bringup (Registry candidates)
open DeviceTree (Blob CoreList Reader)

variable {σ β ν : Type} {room : Nat} {registry : Registry σ} {primaryHw : UInt64}
  {reader : Reader β ν} {b : β} {tree : TreeLocation} {drivers : σ} {ids : List UInt64}

/-! ## From ids to a platform -/

/-- Whether there are more cores than there is room for: too many are listed, or too many are to be
started beside the primary. -/
def Exceeds (room : Nat) (primaryHw : UInt64) (ids : List UInt64) : Prop :=
  room < ids.length ∨ room - 1 < (ids.filter (· != primaryHw)).length

/-- Whether a driver is needed: there is room for all cores, and some are to be started. Only then are
the candidates looked at. -/
def NeedsDriver (room : Nat) (primaryHw : UInt64) (ids : List UInt64) : Prop :=
  ¬ Exceeds room primaryHw ids ∧ ids.filter (· != primaryHw) ≠ []

/-- What a platform for the listed cores is, where `chosen` is the driver that accepts a candidate. -/
structure Describes (primaryHw : UInt64) (tree : TreeLocation) (chosen : Option (Bringup.Driver σ))
    (ids : List UInt64) (platform : Platform σ) : Prop where
  /-- it says where the tree is -/
  tree_eq : platform.tree = tree
  /-- the cores are the primary and the listed ones that are not the primary, in their order -/
  hwIds : platform.cores.cores.map (·.hwId) = primaryHw :: ids.filter (· != primaryHw)
  /-- their logical ids count them from zero -/
  logicalIds : platform.cores.cores.map (·.logical) = List.range platform.cores.count
  /-- they are different cores if the listed ones are -/
  nodup : ids.Nodup → (platform.cores.cores.map (·.hwId)).Nodup
  /-- there is a driver exactly if there are secondaries -/
  driver : platform.driver.isSome = true ↔ platform.cores.secondaries ≠ []
  /-- it is the one that accepts a candidate -/
  chosen : platform.driver.isSome = true → platform.driver = chosen

/-- What becomes of the listed cores. -/
structure Exact (room : Nat) (registry : Registry σ) (primaryHw : UInt64) (reader : Reader β ν) (b : β)
    (tree : TreeLocation) (drivers : σ) (ids : List UInt64)
    (outcome : Outcome BootError (Platform σ)) : Prop where
  /-- there are too many of them exactly if there is no room for them -/
  tooMany : (∃ found max, outcome = .refuse (.tooManyCores found max)) ↔ Exceeds room primaryHw ids
  /-- then it is said how many were found, and how many there is room for: those that are listed if
  these are too many, or else those that are to be started and the primary -/
  said : ∀ found max, outcome = .refuse (.tooManyCores found max) → max = room ∧
    found = if room < ids.length then ids.length else (ids.filter (· != primaryHw)).length + 1
  /-- there is no driver exactly if one is needed and none accepts a candidate, all of which could be
  read -/
  noDriver : outcome = .refuse .noSmpDriver ↔
    NeedsDriver room primaryHw ids ∧ (candidates reader b).fault = none ∧
      (registry.resolve drivers (candidates reader b).items).chosen = none
  /-- there is a fault exactly if a driver is needed and the candidates end in that fault -/
  faulty : ∀ fault, outcome = .fault fault ↔
    NeedsDriver room primaryHw ids ∧ (candidates reader b).fault = some fault
  /-- in all other cases there is a platform -/
  decided : (∃ found max, outcome = .refuse (.tooManyCores found max)) ∨
    outcome = .refuse .noSmpDriver ∨ (∃ fault, outcome = .fault fault) ∨
    ∃ platform, outcome = .ok platform
  /-- and it describes the machine -/
  describes : ∀ platform, outcome = .ok platform →
    Describes primaryHw tree
      ((registry.resolve drivers (candidates reader b).items).chosen.map (·.1)) ids platform

/-- The primary and the others are different cores if the listed ones are. -/
theorem nodup_others (h : ids.Nodup) : (primaryHw :: ids.filter (· != primaryHw)).Nodup :=
  List.nodup_cons.mpr ⟨by simp, h.filter _⟩

/-- Cores that there is no room for. -/
theorem exact_tooMany (h : Exceeds room primaryHw ids) {found : Nat}
    (hfound : found =
      if room < ids.length then ids.length else (ids.filter (· != primaryHw)).length + 1) :
    Exact room registry primaryHw reader b tree drivers ids (.refuse (.tooManyCores found room)) where
  tooMany := iff_of_true ⟨found, room, rfl⟩ h
  said := by
    rintro _ _ hsaid
    cases hsaid
    exact ⟨rfl, hfound⟩
  noDriver := iff_of_false nofun fun hnone => hnone.1.1 h
  faulty := fun _ => iff_of_false nofun fun hfault => hfault.1.1 h
  decided := .inl ⟨found, room, rfl⟩
  describes := nofun

/-- Secondaries without a driver. -/
theorem exact_noDriver (h : NeedsDriver room primaryHw ids)
    (hfault : (candidates reader b).fault = none)
    (hchosen : (registry.resolve drivers (candidates reader b).items).chosen = none) :
    Exact room registry primaryHw reader b tree drivers ids (.refuse .noSmpDriver) where
  tooMany := iff_of_false nofun h.1
  said := nofun
  noDriver := iff_of_true rfl ⟨h, hfault, hchosen⟩
  faulty := fun _ => iff_of_false nofun fun hsome => by simp [hfault] at hsome
  decided := .inr (.inl rfl)
  describes := nofun

/-- Secondaries whose candidates cannot be read to the end. -/
theorem exact_fault (h : NeedsDriver room primaryHw ids) {fault : Fault}
    (hfault : (candidates reader b).fault = some fault) :
    Exact room registry primaryHw reader b tree drivers ids (.fault fault) where
  tooMany := iff_of_false nofun h.1
  said := nofun
  noDriver := iff_of_false nofun fun hnone => by simp [hfault] at hnone
  faulty := fun other => by simp [Outcome.fault, h, hfault]
  decided := .inr (.inr (.inl ⟨fault, rfl⟩))
  describes := nofun

/-- Cores that there is room for, with the driver that they need. -/
theorem exact_platform (h : ¬ Exceeds room primaryHw ids) {driver : Option (Bringup.Driver σ)}
    (hneeded : driver.isSome = true ↔ ids.filter (· != primaryHw) ≠ [])
    (hchosen : driver.isSome = true → (candidates reader b).fault = none ∧
      driver = (registry.resolve drivers (candidates reader b).items).chosen.map (·.1)) :
    Exact room registry primaryHw reader b tree drivers ids
      (.ok { tree, cores := { primaryHw, others := ids.filter (· != primaryHw) }, driver }) where
  tooMany := iff_of_false nofun h
  said := nofun
  noDriver := by
    refine iff_of_false nofun ?_
    rintro ⟨⟨-, hothers⟩, -, hnone⟩
    have hsome := hneeded.mpr hothers
    rw [(hchosen hsome).2, hnone] at hsome
    cases hsome
  faulty := by
    refine fun fault => iff_of_false nofun ?_
    rintro ⟨⟨-, hothers⟩, hfault⟩
    rw [(hchosen (hneeded.mpr hothers)).1] at hfault
    cases hfault
  decided := .inr (.inr (.inr ⟨_, rfl⟩))
  describes := by
    rintro platform hplatform
    cases hplatform
    refine ⟨rfl, CoreMap.map_hwId_cores _, CoreMap.map_logical_cores _, fun hids => ?_, ?_,
      fun hsome => (hchosen hsome).2⟩
    · rw [CoreMap.map_hwId_cores]
      exact nodup_others hids
    · rw [hneeded, ← List.length_pos_iff_ne_nil, ← List.length_pos_iff_ne_nil,
        CoreMap.length_secondaries]

/-- The ids of cores that are listed, of which there is room for as many. -/
theorem exact_ofCores (hroom : 1 ≤ room) (hlength : ids.length ≤ room) :
    Exact room registry primaryHw reader b tree drivers ids
      (ofCores room registry primaryHw reader b tree ids drivers).outcome := by
  unfold ofCores CoreMap.assign
  dsimp only
  split
  next e hassign =>
    split at hassign
    next hmany =>
      cases hassign
      exact exact_tooMany (.inr (by omega)) (if_neg (Nat.not_lt.mpr hlength)).symm
    next => cases hassign
  next cores hassign =>
    split at hassign
    next => cases hassign
    next hfew =>
      cases hassign
      have hfits : ¬ Exceeds room primaryHw ids := by
        unfold Exceeds
        omega
      unfold after chooseDriver
      dsimp only
      split
      next hempty =>
        rw [List.isEmpty_iff] at hempty
        exact exact_platform hfits (by simp [hempty]) nofun
      next hothers =>
        rw [List.isEmpty_iff] at hothers
        cases hfault : (candidates reader b).fault with
        | some fault => exact exact_fault ⟨hfits, hothers⟩ hfault
        | none =>
          cases hchosen : (registry.resolve drivers (candidates reader b).items).chosen with
          | none => exact exact_noDriver ⟨hfits, hothers⟩ hfault hchosen
          | some chosen =>
            exact exact_platform hfits (by simp [hothers]) fun _ => ⟨hfault, by rw [hchosen]; rfl⟩

/-! ## From a tree to ids -/

/-- Why the cores of a tree cannot be listed, where `found` is the node `/cpus`, if there is one. -/
inductive Unlisted (reader : Reader β ν) (found : Option ν) : Prop where
  /-- there is no such node -/
  | missing (hfound : found = none)
  /-- its addresses are longer than hardware ids, or empty -/
  | cells {cpus : ν} {cells : Nat} (hfound : found = some cpus)
    (hcells : reader.addressCells cpus = .ok cells) (hne : cells ≠ 1 ∧ cells ≠ 2)
  /-- a core that counts has no id -/
  | lacks {cpus core : ν} {cells : Nat} (hfound : found = some cpus)
    (hcells : reader.addressCells cpus = .ok cells) (hcore : core ∈ reader.countedCores cpus)
    (hlacks : reader.LacksId cells core)

/-- What discovery promises for a tree with the node `/cpus` that was found, if there is one. -/
structure Discovers (room : Nat) (registry : Registry σ) (primaryHw : UInt64) (reader : Reader β ν)
    (b : β) (tree : TreeLocation) (drivers : σ) (found : Option ν)
    (outcome : Outcome BootError (Platform σ)) : Prop where
  /-- when the cores cannot be listed, the primary is alone -/
  alone : Unlisted reader found → outcome = .ok (.single primaryHw tree)
  /-- otherwise it depends on the ids of the cores that count, in document order -/
  exact : ¬ Unlisted reader found → ∃ cpus cells ids, found = some cpus ∧
    reader.addressCells cpus = .ok cells ∧
    List.Forall₂ (reader.HasId cells) (reader.countedCores cpus) ids ∧
    Exact room registry primaryHw reader b tree drivers ids outcome

/-- The cores of a tree that can be read: either they cannot be listed, and that is not because there
are too many, or the list is that of their ids. -/
theorem cores_cases {found : Option ν} (h : reader.Reports b found) :
    (Unlisted reader found ∧
        ((reader.cores b).problem = some (.refused (.missingNode "/cpus")) ∨
          (reader.cores b).problem = some (.refused .invalidData))) ∨
      ∃ cpus cells ids, found = some cpus ∧ reader.addressCells cpus = .ok cells ∧
        List.Forall₂ (fun core id => reader.hwId? core cells = some id) (reader.countedCores cpus)
          ids ∧
        reader.cores b = ⟨ids, none⟩ := by
  unfold Reader.cores
  rw [h.found_eq]
  cases found with
  | none => exact .inl ⟨.missing rfl, .inl rfl⟩
  | some cpus =>
    obtain ⟨cells, hcells⟩ := h.cells cpus rfl
    dsimp only
    rw [hcells]
    dsimp only
    rw [h.children cpus rfl]
    rcases CoreList.ofChildren_cases reader cells (reader.children cpus).items with
      ⟨⟨core, hcore, hnone⟩, hproblem⟩ | ⟨ids, hids, hlist⟩
    · refine .inl ⟨?_, .inr hproblem⟩
      rcases Reader.hwId?_eq_none_iff.mp hnone with hne | hlacks
      · exact .cells rfl hcells hne
      · exact .lacks rfl hcells hcore hlacks
    · exact .inr ⟨cpus, cells, ids, rfl, hcells, hids, hlist⟩

/-- Where the ids of the cores that count are read although these cannot be listed, there are none. -/
theorem eq_nil_of_unlisted {cpus : ν} {cells : Nat} (hcells : reader.addressCells cpus = .ok cells)
    (hids : List.Forall₂ (fun core id => reader.hwId? core cells = some id)
      (reader.countedCores cpus) ids)
    (h : Unlisted reader (some cpus)) : ids = [] := by
  cases h with
  | missing hfound => cases hfound
  | cells hfound hcells' hne =>
    -- the first core that counts would have an id of a length that cannot be read
    cases hfound
    rw [hcells] at hcells'
    cases hcells'
    generalize reader.countedCores cpus = cores at hids
    cases hids with
    | nil => rfl
    | cons hid _ => exact absurd (Reader.hwId?_eq_some_iff.mp hid).1 (not_or.mpr hne)
  | lacks hfound hcells' hcore hlacks =>
    cases hfound
    rw [hcells] at hcells'
    cases hcells'
    have hread := (List.forall₂_and_left (p := fun core => ∃ id, reader.hwId? core cells = some id)
      _ _).mp (hids.imp fun _ id hid => ⟨⟨id, hid⟩, hid⟩)
    obtain ⟨id, hid⟩ := hread.1 _ hcore
    rw [Reader.hwId?_eq_none_iff.mpr (.inr hlacks)] at hid
    cases hid

/-- No listed cores are the primary alone. -/
theorem outcome_ofCores_nil (hroom : 1 ≤ room) :
    (ofCores room registry primaryHw reader b tree [] drivers).outcome =
      .ok (.single primaryHw tree) := by
  have hassign : CoreMap.assign room primaryHw [] = .ok (.single primaryHw) :=
    if_neg (Nat.not_lt.mpr hroom)
  unfold ofCores
  rw [hassign]
  rfl

/-- What discovery makes of a tree whose cores can be read. -/
theorem discovers_ofBlob {found : Option ν} (hroom : 1 ≤ room)
    (hsize : reader.totalSize b ≤ maxTreeSize) (h : reader.Reports b found)
    (registry : Registry σ) (primaryHw : UInt64) (phys : PhysAddr) (drivers : σ) :
    Discovers room registry primaryHw reader b ⟨phys, UInt64.ofNat (reader.totalSize b)⟩ drivers
      found (ofBlob true room registry primaryHw reader b phys drivers).outcome := by
  unfold ofBlob
  dsimp only [after]
  rw [if_neg (Nat.not_lt.mpr hsize)]
  simp only [Bool.not_true, Bool.false_eq_true, if_false]
  unfold CoreList.within
  rcases cores_cases h with
    ⟨hunlisted, hproblem | hproblem⟩ | ⟨cpus, cells, ids, rfl, hcells, hids, hlist⟩
  · rw [hproblem]
    exact ⟨fun _ => outcome_ofCores_nil hroom, fun h => absurd hunlisted h⟩
  · rw [hproblem]
    exact ⟨fun _ => outcome_ofCores_nil hroom, fun h => absurd hunlisted h⟩
  · rw [hlist]
    dsimp only
    refine ⟨fun h => ?_, fun _ => ⟨cpus, cells, ids, rfl, hcells,
      hids.imp fun _ _ hid => (Reader.hwId?_eq_some_iff.mp hid).2, ?_⟩⟩
    · rw [eq_nil_of_unlisted hcells hids h, List.length_nil, if_neg (Nat.not_lt_zero room)]
      exact outcome_ofCores_nil hroom
    · by_cases hmany : room < ids.length
      · rw [if_pos hmany]
        exact exact_tooMany (.inl hmany) (if_pos hmany).symm
      · rw [if_neg hmany]
        exact exact_ofCores hroom (Nat.not_lt.mp hmany)

/-- The reader of blobs gets to the end of the cores of the tree of two cores. -/
theorem reports_pair : Blob.reader.Reports pairBlob (some pairCpus) where
  found_eq := parks_pair.found
  cells := by
    rintro _ ⟨rfl⟩
    exact ⟨1, parks_pair.cells_eq⟩
  children := by
    rintro _ ⟨rfl⟩
    decide +kernel

/-- A loader with room for two cores finds as many in the tree of two cores when it runs on one of
them. -/
theorem discovers_ofBlob_pair :
    let found := (ofBlob true 2 Registry.arm 1 Blob.reader pairBlob ⟨0x1000⟩ ({}, {})).outcome
    Discovers 2 Registry.arm 1 Blob.reader pairBlob
        ⟨⟨0x1000⟩, UInt64.ofNat (Blob.reader.totalSize pairBlob)⟩ ({}, {}) (some pairCpus) found ∧
      (found.toOption.map fun platform => platform.cores.cores) = some [⟨1, 0⟩, ⟨0, 1⟩] :=
  ⟨discovers_ofBlob (by decide) (by decide +kernel) reports_pair Registry.arm 1 ⟨0x1000⟩ ({}, {}),
    by decide +kernel⟩

end BootLoader.Boot.Discovery
