import BootLoader.Proofs.Address
import BootLoader.Proofs.Bringup.Records
import BootLoader.Proofs.Bringup.Resolution
import Mathlib.Data.List.Dedup
import Mathlib.Data.List.Perm.Basic

/-!
# The release table is a bounded map

Probes of a spin table teach it the release words of cores. As a map from cores to addresses, the
table has the last word that was accepted for each core (`SpinTable.Maps`), and its slots have no
more to say than this map: a new word of a core takes the place of the old one, and the first free
slot is taken only by a core that is not in the table yet. So the search for a slot, which stops at
the first that is free or belongs to the core, never leaves an old word behind
(`SpinTable.keeps_probes`).
-/

namespace BootLoader.Bringup

variable {σ : Type}

/-! ## Accepted release words -/

/-- The release words that drivers have accepted in some probes, oldest first. -/
def acceptedOf (ps : List (Probe σ)) : List Release :=
  ps.filterMap fun p =>
    match p.result with
    | .ok () => p.candidate.release
    | .error _ => none

/-- Later probes add to the accepted release words. -/
theorem acceptedOf_append (ps ps' : List (Probe σ)) :
    acceptedOf (ps ++ ps') = acceptedOf ps ++ acceptedOf ps' :=
  List.filterMap_append

/-- The last of some release words that is one of the core `hwId`. -/
def lastOf (accepted : List Release) (hwId : UInt64) : Option Release :=
  (accepted.filter (·.hwId == hwId)).getLast?

/-- One more release word is the last of its own core, and of no other. -/
theorem lastOf_concat (accepted : List Release) (release : Release) (hwId : UInt64) :
    lastOf (accepted ++ [release]) hwId =
      if release.hwId = hwId then some release else lastOf accepted hwId := by
  unfold lastOf
  rw [List.filter_append]
  by_cases hid : release.hwId = hwId <;> simp [hid]

/-- The last release word of a core is one of its own that was accepted. -/
theorem of_lastOf {accepted : List Release} {hwId : UInt64} {release : Release}
    (h : lastOf accepted hwId = some release) : release ∈ accepted ∧ release.hwId = hwId := by
  simpa using List.mem_filter.mp (List.mem_of_getLast? h)

/-- A core has a last release word when it has any. -/
theorem exists_lastOf {accepted : List Release} {hwId : UInt64}
    (h : hwId ∈ accepted.map (·.hwId)) : ∃ release, lastOf accepted hwId = some release := by
  obtain ⟨release, hmem, hid⟩ := List.mem_map.mp h
  have hfilter : release ∈ accepted.filter (·.hwId == hwId) :=
    List.mem_filter.mpr ⟨hmem, by simpa using hid⟩
  exact ⟨_, List.getLast?_eq_some_getLast (List.ne_nil_of_mem hfilter)⟩

namespace SpinTable

variable {t : SpinTable} {rs accepted : List Release} {release : Release} {c : Candidate}

/-! ## One probe -/

/-- A release word can be written when it is not at zero, and aligned to eight bytes. -/
theorem isUsable_iff :
    isUsable release = true ↔ release.addr.toNat ≠ 0 ∧ release.addr.toNat % 8 = 0 := by
  have hnull : release.addr.isNull = true ↔ release.addr.toNat = 0 := by
    unfold Address.isNull Address.toNat
    rw [beq_iff_eq, ← UInt64.toNat_inj]
    rfl
  unfold isUsable
  rw [Bool.and_eq_true, Bool.not_eq_true', ← Bool.not_eq_true, hnull,
    Address.isAligned_iff (by decide)]
  rfl

/-- A candidate has no release word that can be written when it has none at all, or one at zero, or
one that is not aligned. -/
theorem unusable_iff : (∀ release, c.release = some release → isUsable release = false) ↔
    c.release = none ∨ ∃ release, c.release = some release ∧
      (release.addr.toNat = 0 ∨ release.addr.toNat % 8 ≠ 0) := by
  simp only [← Bool.not_eq_true, isUsable_iff, not_and_or, not_not]
  cases c.release with
  | none => simp
  | some release => simp

/-- The release word of a core with a record replaces it, one of another core is added while there
is room, and after that is not recorded. -/
theorem Lists.record?_cases (h : t.Lists rs) (release : Release) :
    (t.record? release = none ∧ release.hwId ∉ rs.map (·.hwId) ∧ rs.length = maxReleases) ∨
      ∃ t' rs', t.record? release = some t' ∧ t'.Lists rs' ∧
        (release.hwId ∈ rs.map (·.hwId) ∨ rs.length < maxReleases) ∧
        ∀ r, r ∈ rs' ↔ r = release ∨ r ∈ rs ∧ r.hwId ≠ release.hwId := by
  by_cases hknown : release.hwId ∈ rs.map (·.hwId)
  · right
    obtain ⟨old, hmem, hid⟩ := List.mem_map.mp hknown
    obtain ⟨others, rest, rfl⟩ := List.append_of_mem hmem
    obtain ⟨t', hrecord, hlists⟩ := h.record?_known hid
    refine ⟨t', _, hrecord, hlists, .inl hknown, fun r => ?_⟩
    -- no other record is one of this core
    have hother : ∀ r ∈ others ++ rest, r.hwId ≠ release.hwId := by
      have hnodup := h.nodup
      rw [List.map_append, List.map_cons, List.nodup_middle, List.nodup_cons, hid,
        ← List.map_append] at hnodup
      exact fun r hr hsame => hnodup.1 (List.mem_map.mpr ⟨r, hr, hsame⟩)
    -- and the one that there was gives way
    have hold : r = old → ¬r.hwId ≠ release.hwId := by
      rintro rfl
      simpa using hid
    simp only [List.mem_append, List.mem_cons] at hother ⊢
    grind
  · by_cases hroom : rs.length < maxReleases
    · right
      obtain ⟨t', hrecord, hlists⟩ := h.record?_new hknown hroom
      refine ⟨t', _, hrecord, hlists, .inr hroom, fun r => ?_⟩
      have hother : r ∈ rs → r.hwId ≠ release.hwId :=
        fun hr hsame => hknown (List.mem_map.mpr ⟨r, hr, hsame⟩)
      simp only [List.mem_append, List.mem_singleton]
      grind
    · have hfull : rs.length = maxReleases := Nat.le_antisymm h.length_le (Nat.le_of_not_lt hroom)
      exact .inl ⟨h.record?_full hknown hfull, hknown, hfull⟩

/-- What a probe of a table with the records `rs` can be. -/
inductive Probed (t : SpinTable) (rs : List Release) (c : Candidate) : Answer SpinTable → Prop
  /-- there is no release word that can be written -/
  | invalid (hinvalid : ∀ release, c.release = some release → isUsable release = false) :
    Probed t rs c (.refuse invalidNode t)
  /-- the release word is of one core more than there is room for -/
  | full (release : Release) (hrelease : c.release = some release)
    (husable : isUsable release = true) (hnew : release.hwId ∉ rs.map (·.hwId))
    (hfull : rs.length = maxReleases) : Probed t rs c (.refuse tableFull t)
  /-- the release word is the record of its core from now on -/
  | recorded (release : Release) (hrelease : c.release = some release)
    (husable : isUsable release = true)
    (hroom : release.hwId ∈ rs.map (·.hwId) ∨ rs.length < maxReleases)
    (answer : Answer SpinTable) (hok : answer.result = .ok ()) (rs' : List Release)
    (hlists : answer.state.Lists rs')
    (hmem : ∀ r, r ∈ rs' ↔ r = release ∨ r ∈ rs ∧ r.hwId ≠ release.hwId) : Probed t rs c answer

/-- A probe is one of these. -/
theorem Lists.probed (h : t.Lists rs) (c : Candidate) : Probed t rs c (probe c t) := by
  unfold probe
  cases hrelease : c.release with
  | none => exact .invalid (by simp [hrelease])
  | some release =>
    cases husable : isUsable release with
    | false =>
      simp only [husable, Bool.not_false, if_true]
      exact .invalid (by simpa [hrelease] using husable)
    | true =>
      rcases h.record?_cases release with
        ⟨hrecord, hnew, hfull⟩ | ⟨t', rs', hrecord, hlists, hroom, hmem⟩
      · simp only [husable, hrecord, Bool.not_true, Bool.false_eq_true, if_false]
        exact .full release hrelease husable hnew hfull
      · simp only [husable, hrecord, Bool.not_true, Bool.false_eq_true, if_false]
        exact .recorded release hrelease husable hroom _ rfl rs' hlists hmem

namespace Probed

variable {answer : Answer SpinTable}

/-- A probe is invalid exactly when there is no release word that can be written. -/
theorem invalid_iff (h : Probed t rs c answer) : answer.result = .error ⟨invalidNode⟩ ↔
    ∀ release, c.release = some release → isUsable release = false := by
  cases h with
  | invalid hinvalid => exact iff_of_true rfl hinvalid
  | full release hrelease husable =>
    refine iff_of_false (by simp [Answer.refuse, invalidNode, tableFull]) fun hinvalid => ?_
    simp [hinvalid release hrelease] at husable
  | recorded release hrelease husable _ _ hok =>
    refine iff_of_false (by simp [hok]) fun hinvalid => ?_
    simp [hinvalid release hrelease] at husable

/-- The table is full exactly for a release word that can be written, of a core without a record,
when there is no room for one more. -/
theorem full_iff (h : Probed t rs c answer) : answer.result = .error ⟨tableFull⟩ ↔
    ∃ release, c.release = some release ∧ isUsable release = true ∧
      release.hwId ∉ rs.map (·.hwId) ∧ rs.length = maxReleases := by
  cases h with
  | invalid hinvalid =>
    refine iff_of_false (by simp [Answer.refuse, invalidNode, tableFull]) ?_
    rintro ⟨release, hrelease, husable, -⟩
    simp [hinvalid release hrelease] at husable
  | full release hrelease husable hnew hfull =>
    exact iff_of_true rfl ⟨release, hrelease, husable, hnew, hfull⟩
  | recorded release hrelease _ hroom _ hok =>
    refine iff_of_false (by simp [hok]) ?_
    rintro ⟨other, hother, -, hnew, hfull⟩
    obtain rfl := Option.some.inj (hrelease.symm.trans hother)
    exact hroom.elim hnew fun hlt => Nat.ne_of_lt hlt hfull

/-- A probe is rejected for no other reason, and then the table is as it was. -/
theorem rejected (h : Probed t rs c answer) {e : DriverError} (he : answer.result = .error e) :
    (e = ⟨invalidNode⟩ ∨ e = ⟨tableFull⟩) ∧ answer.state = t := by
  cases h with
  | invalid => exact ⟨.inl (Except.error.inj he).symm, rfl⟩
  | full => exact ⟨.inr (Except.error.inj he).symm, rfl⟩
  | recorded _ _ _ _ _ hok => simp [hok] at he

end Probed

/-! ## The table as a map -/

/-- Whether the records `rs` of the table are the last release words that were accepted. -/
structure Maps (t : SpinTable) (rs accepted : List Release) : Prop where
  /-- the table has these records -/
  lists : t.Lists rs
  /-- they are the last accepted ones of their cores -/
  mem_iff : ∀ release, release ∈ rs ↔ lastOf accepted release.hwId = some release

/-- The cores with a record are those for which a release word was accepted. -/
theorem Maps.core_iff (h : t.Maps rs accepted) (hwId : UInt64) :
    hwId ∈ rs.map (·.hwId) ↔ hwId ∈ accepted.map (·.hwId) := by
  constructor
  · intro hmem
    obtain ⟨release, hrelease, rfl⟩ := List.mem_map.mp hmem
    exact List.mem_map_of_mem (of_lastOf ((h.mem_iff release).mp hrelease)).1
  · intro hmem
    obtain ⟨release, hlast⟩ := exists_lastOf hmem
    obtain ⟨-, rfl⟩ := of_lastOf hlast
    exact List.mem_map_of_mem ((h.mem_iff release).mpr hlast)

/-- There are as many records as cores for which a release word was accepted. -/
theorem Maps.length_eq (h : t.Maps rs accepted) :
    rs.length = (accepted.map (·.hwId)).dedup.length := by
  have hperm : (rs.map (·.hwId)).Perm (accepted.map (·.hwId)).dedup :=
    (List.perm_ext_iff_of_nodup h.lists.nodup (List.nodup_dedup _)).mpr fun hwId => by
      rw [List.mem_dedup]
      exact h.core_iff hwId
  rw [← hperm.length_eq, List.length_map]

/-- A core has the last release word that was accepted for it. -/
theorem Maps.releaseAddr_eq (h : t.Maps rs accepted) (hwId : UInt64) :
    t.releaseAddr hwId = (lastOf accepted hwId).map (·.addr) := by
  cases hlast : lastOf accepted hwId with
  | some release =>
    obtain ⟨-, rfl⟩ := of_lastOf hlast
    exact h.lists.releaseAddr_of_mem ((h.mem_iff release).mpr hlast)
  | none =>
    rw [Option.map_none, h.lists.releaseAddr_eq_none]
    rintro release hrelease rfl
    simp [(h.mem_iff release).mp hrelease] at hlast

/-- A probe keeps the last release words: it adds one when it is accepted, and none otherwise. -/
theorem Maps.probe (h : t.Maps rs accepted) (c : Candidate) : ∃ rs',
    (probe c t).state.Maps rs' (accepted ++ acceptedOf [⟨driver, c, (probe c t).result⟩]) := by
  have hprobed := h.lists.probed c
  generalize SpinTable.probe c t = answer at hprobed ⊢
  cases hprobed with
  | invalid => exact ⟨rs, by simpa [acceptedOf, Answer.refuse] using h⟩
  | full => exact ⟨rs, by simpa [acceptedOf, Answer.refuse] using h⟩
  | recorded release hrelease husable hroom answer hok rs' hlists hmem =>
    have haccepted : acceptedOf [⟨driver, c, answer.result⟩] = [release] := by
      simp [acceptedOf, hok, hrelease]
    rw [haccepted]
    -- the new word is the last of its core, and no other core has a new one
    refine ⟨rs', hlists, fun r => ?_⟩
    rw [hmem, h.mem_iff, lastOf_concat]
    by_cases hid : release.hwId = r.hwId
    · simp [hid, eq_comm]
    · simp only [hid, if_false]
      constructor
      · rintro (rfl | ⟨hlast, -⟩)
        · exact absurd rfl hid
        · exact hlast
      · exact fun hlast => .inr ⟨hlast, Ne.symm hid⟩

/-! ## Any number of probes -/

/-- The offers of some candidates to the table. -/
def offersTo (cs : List Candidate) : List (Offer SpinTable) := cs.map (driver, ·)

/-- After any probes of a table without records, the table has the last release words that were
accepted. -/
theorem Maps.probes (h : t.Maps [] []) (cs : List Candidate) : ∃ rs,
    (stateAfter t (offersTo cs)).Maps rs (acceptedOf (probesOf t (offersTo cs))) := by
  induction cs using List.reverseRecOn with
  | nil => exact ⟨[], h⟩
  | append_singleton cs c ih =>
    obtain ⟨rs, hmaps⟩ := ih
    have hoffers : offersTo (cs ++ [c]) = offersTo cs ++ [(driver, c)] := List.map_append
    rw [hoffers, stateAfter_append, probesOf_append, acceptedOf_append]
    exact hmaps.probe c

/-- What a table keeps of the release words `accepted`, and how it answers the probe `next`. -/
structure Keeps (t : SpinTable) (accepted : List Release) (next : Candidate) : Prop where
  /-- the occupied slots come first, and hold different cores -/
  lists : t.Lists (t.slots.toList.filterMap id)
  /-- they hold the cores for which a release word was accepted -/
  cores : ∀ hwId, hwId ∈ (t.slots.toList.filterMap id).map (·.hwId) ↔
    hwId ∈ accepted.map (·.hwId)
  /-- the release word of a core is the last one accepted for it, and there is none without one -/
  releaseAddr : ∀ hwId, t.releaseAddr hwId = (lastOf accepted hwId).map (·.addr)
  /-- a probe is invalid exactly when there is no release word, or it cannot be written -/
  invalid_iff : (probe next t).result = .error ⟨invalidNode⟩ ↔ next.release = none ∨
    ∃ release, next.release = some release ∧
      (release.addr.toNat = 0 ∨ release.addr.toNat % 8 ≠ 0)
  /-- the table is full exactly for a valid release word of one core more than it has room for -/
  full_iff : (probe next t).result = .error ⟨tableFull⟩ ↔ ∃ release,
    next.release = some release ∧ release.addr.toNat ≠ 0 ∧ release.addr.toNat % 8 = 0 ∧
      release.hwId ∉ accepted.map (·.hwId) ∧
      (accepted.map (·.hwId)).dedup.length = maxReleases
  /-- there are no other reasons to reject a probe -/
  reasons : ∀ e, (probe next t).result = .error e → e = ⟨invalidNode⟩ ∨ e = ⟨tableFull⟩
  /-- a rejected probe changes nothing -/
  rejected : ∀ e, (probe next t).result = .error e → (probe next t).state = t

/-- However a fresh table is probed, it keeps the last release word that was accepted for each core,
and rejects a probe only for an unusable word, or for one core more than it has room for. -/
theorem keeps_probes (handover : Handover) (wakeUp : List Processor.Instruction)
    (cs : List Candidate) (next : Candidate) :
    (stateAfter { handover, wakeUp } (offersTo cs)).Keeps
      (acceptedOf (probesOf { handover, wakeUp } (offersTo cs))) next := by
  have hfresh : ({ handover, wakeUp } : SpinTable).Maps [] [] :=
    { lists := lists_nil rfl
      mem_iff := by simp [lastOf] }
  obtain ⟨rs, h⟩ := hfresh.probes cs
  generalize stateAfter { handover, wakeUp } (offersTo cs) = t at h ⊢
  generalize acceptedOf (probesOf { handover, wakeUp } (offersTo cs)) = accepted at h ⊢
  have hrecords : t.slots.toList.filterMap id = rs := by
    rw [h.lists.slots_eq]
    simp [List.filterMap_append]
  have hprobed := h.lists.probed next
  exact
    { lists := hrecords ▸ h.lists
      cores := fun hwId => hrecords ▸ h.core_iff hwId
      releaseAddr := h.releaseAddr_eq
      invalid_iff := hprobed.invalid_iff.trans unusable_iff
      full_iff := by
        rw [hprobed.full_iff, h.length_eq]
        simp only [h.core_iff, isUsable_iff, and_assoc]
      reasons := fun e he => (hprobed.rejected he).1
      rejected := fun e he => (hprobed.rejected he).2 }

end SpinTable

end BootLoader.Bringup
