import BootLoader.Bringup.SpinTable
import Mathlib.Data.List.Nodup

/-!
# The records of a spin table

A spin table keeps a release word for each of some cores, at most sixteen. As a list, its slots are
the records in the order in which their cores were first heard of, and then free slots
(`SpinTable.Lists`). A usable word of a core that is not in the list goes to its end
(`SpinTable.Lists.probe_new`), and the word of a core is looked up in the list
(`SpinTable.Lists.releaseAddr_eq`).
-/

namespace BootLoader.Bringup.SpinTable

/-- Whether the table has the records `rs`, in this order, and free slots after them. -/
structure Lists (t : SpinTable) (rs : List Release) : Prop where
  /-- the records stand first -/
  slots_eq : t.slots.toList = rs.map some ++ List.replicate (maxReleases - rs.length) none
  /-- no core has two of them -/
  nodup : (rs.map (·.hwId)).Nodup

variable {t : SpinTable} {rs : List Release} {release : Release}

/-- A table whose slots are free has no records. -/
theorem lists_nil (h : t.slots = Vector.replicate maxReleases none) : t.Lists [] where
  slots_eq := by
    rw [h]
    rfl
  nodup := List.nodup_nil

/-- There are no more records than slots. -/
theorem Lists.length_le (h : t.Lists rs) : rs.length ≤ maxReleases := by
  have hlength := congrArg List.length h.slots_eq
  simp only [Vector.length_toList, List.length_append, List.length_map, List.length_replicate]
    at hlength
  omega

/-- The release word of a core is that of its record. -/
theorem Lists.releaseAddr_eq (h : t.Lists rs) (hwId : UInt64) :
    t.releaseAddr hwId = (rs.find? (·.hwId == hwId)).map (·.addr) := by
  unfold releaseAddr
  rw [h.slots_eq]
  simp [List.filterMap_append]

/-- A core has the release word of its record. -/
theorem Lists.releaseAddr_of_mem (h : t.Lists rs) (hmem : release ∈ rs) :
    t.releaseAddr release.hwId = some release.addr := by
  rw [h.releaseAddr_eq]
  cases hfind : rs.find? (·.hwId == release.hwId) with
  | none => simpa using List.find?_eq_none.mp hfind release hmem
  | some found =>
    have hid : found.hwId = release.hwId := by simpa using List.find?_some hfind
    rw [List.inj_on_of_nodup_map h.nodup (List.mem_of_find?_eq_some hfind) hmem hid]
    rfl

/-- A core without a record has no release word. -/
theorem Lists.releaseAddr_eq_none (h : t.Lists rs) {hwId : UInt64} :
    t.releaseAddr hwId = none ↔ ∀ release ∈ rs, release.hwId ≠ hwId := by
  rw [h.releaseAddr_eq]
  simp

/-- A release word is put into the first slot that can take it. -/
theorem record?_of_findIdx? {i : Nat}
    (h : t.slots.toList.findIdx? (accepts release.hwId) = some i) :
    ∃ t', t.record? release = some t' ∧
      t'.slots.toList = t.slots.toList.set i (some release) := by
  rw [List.findIdx?_eq_map_findFinIdx?_val, Vector.findFinIdx?_toList] at h
  unfold record?
  cases hslot : t.slots.findFinIdx? (accepts release.hwId) with
  | none => simp [hslot] at h
  | some slot =>
    obtain rfl : slot.val = i := by simpa [hslot] using h
    exact ⟨_, rfl, Vector.toList_set slot.isLt⟩

/-- A release word that no slot can take is not recorded. -/
theorem record?_of_findIdx?_none (h : t.slots.toList.findIdx? (accepts release.hwId) = none) :
    t.record? release = none := by
  rw [List.findIdx?_eq_map_findFinIdx?_val, Vector.findFinIdx?_toList] at h
  unfold record?
  cases hslot : t.slots.findFinIdx? (accepts release.hwId) with
  | none => rfl
  | some slot => simp [hslot] at h

/-- No record can take a release word of another core. -/
theorem findIdx?_accepts_eq_none (hnew : release.hwId ∉ rs.map (·.hwId)) :
    (rs.map some).findIdx? (accepts release.hwId) = none := by
  simp only [List.findIdx?_eq_none_iff, List.forall_mem_map, accepts]
  intro r hr
  simpa using fun hid => hnew (List.mem_map.mpr ⟨r, hr, hid⟩)

/-- A release word of a core that has no record yet goes to the end of the list. -/
theorem Lists.record?_new (h : t.Lists rs) (hnew : release.hwId ∉ rs.map (·.hwId))
    (hroom : rs.length < maxReleases) :
    ∃ t', t.record? release = some t' ∧ t'.Lists (rs ++ [release]) := by
  obtain ⟨free, hfree⟩ : ∃ free, maxReleases - rs.length = free + 1 :=
    ⟨maxReleases - rs.length - 1, by omega⟩
  have hslots := h.slots_eq
  rw [hfree, List.replicate_succ] at hslots
  have hfind : t.slots.toList.findIdx? (accepts release.hwId) = some rs.length := by
    rw [hslots, List.findIdx?_append, findIdx?_accepts_eq_none hnew]
    simp [List.findIdx?_cons, accepts]
  obtain ⟨t', hrecord, hset⟩ := record?_of_findIdx? hfind
  refine ⟨t', hrecord, ?_, ?_⟩
  · have hrest : maxReleases - (rs ++ [release]).length = free := by
      rw [List.length_append, List.length_singleton]
      omega
    rw [hset, hslots, hrest, List.set_append_right _ _ (by simp)]
    simp
  · rw [List.map_append, List.nodup_append]
    refine ⟨h.nodup, by simp, ?_⟩
    simpa using fun r hr hid => hnew (List.mem_map.mpr ⟨r, hr, hid⟩)

/-- A release word of a core that has a record takes its place. -/
theorem Lists.record?_known {others rest : List Release} {old : Release}
    (h : t.Lists (others ++ old :: rest)) (hid : old.hwId = release.hwId) :
    ∃ t', t.record? release = some t' ∧ t'.Lists (others ++ release :: rest) := by
  have hnodup := h.nodup
  have hslots := h.slots_eq
  rw [List.map_append, List.map_cons, hid] at hnodup
  rw [List.map_append, List.map_cons, List.append_assoc, List.cons_append] at hslots
  have hother : release.hwId ∉ others.map (·.hwId) := by
    intro hmem
    exact List.disjoint_of_nodup_append hnodup hmem List.mem_cons_self
  have hfind : t.slots.toList.findIdx? (accepts release.hwId) = some others.length := by
    rw [hslots, List.findIdx?_append, findIdx?_accepts_eq_none hother]
    simp [List.findIdx?_cons, accepts, hid]
  obtain ⟨t', hrecord, hset⟩ := record?_of_findIdx? hfind
  refine ⟨t', hrecord, ?_, ?_⟩
  · rw [hset, hslots, List.set_append_right _ _ (by simp)]
    simp
  · rwa [List.map_append, List.map_cons]

/-- A full table has no room for one more core. -/
theorem Lists.record?_full (h : t.Lists rs) (hnew : release.hwId ∉ rs.map (·.hwId))
    (hfull : rs.length = maxReleases) : t.record? release = none := by
  apply record?_of_findIdx?_none
  have hslots := h.slots_eq
  rw [hfull, Nat.sub_self, List.replicate_zero, List.append_nil] at hslots
  rw [hslots, findIdx?_accepts_eq_none hnew]

/-- The driver accepts a usable release word of a core that has no record yet. -/
theorem Lists.probe_new (h : t.Lists rs) {c : Candidate} (hc : c.release = some release)
    (husable : isUsable release = true) (hnew : release.hwId ∉ rs.map (·.hwId))
    (hroom : rs.length < maxReleases) :
    (probe c t).result = .ok () ∧ (probe c t).state.Lists (rs ++ [release]) := by
  obtain ⟨t', hrecord, hlists⟩ := h.record?_new hnew hroom
  unfold probe
  simp only [hc, husable, hrecord, Bool.not_true, Bool.false_eq_true, if_false]
  exact ⟨rfl, hlists⟩

end BootLoader.Bringup.SpinTable
