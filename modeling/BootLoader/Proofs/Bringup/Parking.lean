import BootLoader.Bringup.Psci
import BootLoader.Bringup.Registry
import BootLoader.Proofs.Bringup.Records

/-!
# Learning about parked cores

The loader of an Arm machine has two bring-up drivers, that of the firmware's power interface and
the spin table (`Registry.arm`). On a machine whose firmware cannot be called, the first core with a
release word selects the spin table, and the spin table then hears of every other core with one. So
it ends up with the release words of all parked cores (`Registry.resolve_parked`).
-/

namespace BootLoader.Bringup

open DeviceTree (Reader readCells)

variable {β ν : Type} {reader : Reader β ν}

/-! ## Parked cores -/

/-- What a child of `/cpus` says of a core that is parked, where addresses have `cells` words. -/
def parked? (reader : Reader β ν) (cells : Nat) (node : ν) : Option Release :=
  if reader.text? node "enable-method" = some SpinTable.enableMethod then do
    let hwId ← reader.hwId? node cells
    let value ← reader.property? node "cpu-release-addr"
    let addr ← readCells value (value.length / 4)
    return { hwId, addr := ⟨addr⟩ }
  else none

/-- The candidate of a core has its enable method as its text, and a release word; it does not say
how to call the firmware. -/
theorem of_ofCore? {cells : Nat} {node : ν} {c : Candidate}
    (h : Candidate.ofCore? reader cells node = some c) :
    reader.text? node "enable-method" = some c.compatible ∧ c.method = none ∧
      ∃ release, c.release = some release := by
  simp only [Candidate.ofCore?, Option.bind_eq_bind, Option.bind_eq_some_iff] at h
  obtain ⟨method, hmethod, _, -, _, -, _, -, hc⟩ := h
  cases hc
  exact ⟨hmethod, rfl, _, rfl⟩

/-- A core is parked if its candidate is one that the spin table handles. -/
theorem parked?_eq (reader : Reader β ν) (cells : Nat) (node : ν) :
    parked? reader cells node = (Candidate.ofCore? reader cells node).bind fun c =>
      if SpinTable.handles c.compatible then c.release else none := by
  by_cases hmethod : reader.text? node "enable-method" = some SpinTable.enableMethod
  · simp [parked?, Candidate.ofCore?, SpinTable.handles, hmethod, Option.bind_assoc]
  · rw [parked?, if_neg hmethod]
    cases hc : Candidate.ofCore? reader cells node with
    | none => rfl
    | some c =>
      have hother : c.compatible ≠ SpinTable.enableMethod := by
        intro heq
        exact hmethod (heq ▸ (of_ofCore? hc).1)
      simp [SpinTable.handles, hother]

/-! ## The drivers -/

namespace Registry

/-- The spin table, where the power interface is kept beside it. -/
def spinTable : Driver (Psci × SpinTable) := SpinTable.driver.focus Prod.snd fun t s => (s.1, t)

/-- The power interface, where the spin table is kept beside it. -/
def psci : Driver (Psci × SpinTable) := Psci.driver.focus Prod.fst fun p s => (p, s.2)

/-- The drivers of an Arm machine. -/
def arm : Registry (Psci × SpinTable) :=
  [{ handles := Psci.handles, driver := psci },
    { handles := SpinTable.handles, driver := spinTable }]

/-- Which of them has a text. -/
theorem lookup_arm (compatible : String) :
    arm.lookup compatible =
      if Psci.handles compatible then some psci
      else if SpinTable.handles compatible then some spinTable else none := by
  unfold lookup arm
  cases hpsci : Psci.handles compatible <;> cases hspin : SpinTable.handles compatible <;>
    simp [hpsci, hspin]

/-- Whether a candidate is of no use to either driver: it is not the firmware's with a way to call
it, and not that of a parked core. -/
structure Idle (c : Candidate) : Prop where
  /-- the firmware cannot be called -/
  firmware : Psci.handles c.compatible = true → c.method.bind Conduit.ofMethod? = none
  /-- there is no release word -/
  release : SpinTable.handles c.compatible = true → c.release = none

/-- A candidate that is of no use leaves the choice open, and the drivers as they are. -/
theorem visit_idle {c : Candidate} (hc : Idle c) {r : Resolution (Psci × SpinTable)}
    (hopen : r.chosen = none) :
    (arm.visit r c).chosen = none ∧ (arm.visit r c).state = r.state := by
  have hpsci : Psci.handles c.compatible = true →
      psci.probe c r.state = .refuse PsciError.invalidParameters.code r.state := by
    intro h
    simp [psci, Driver.focus, Psci.driver, Psci.probe, hc.firmware h, Answer.mapState, Answer.refuse]
  have hspin : SpinTable.handles c.compatible = true →
      spinTable.probe c r.state = .refuse SpinTable.invalidNode r.state := by
    intro h
    simp [spinTable, Driver.focus, SpinTable.driver, SpinTable.probe, hc.release h,
      Answer.mapState, Answer.refuse]
  unfold visit
  rw [hopen, lookup_arm]
  split_ifs with h h'
  · simp [hpsci h, Answer.refuse, Resolution.probe, hopen]
  · simp [hspin h', Answer.refuse, Resolution.probe, hopen]
  · exact ⟨hopen, rfl⟩

/-- How far the choice has come when the spin table has heard of the parked cores `rs`. -/
structure Learned (p : Psci) (rs : List Release) (r : Resolution (Psci × SpinTable)) : Prop where
  /-- the power interface is as it was -/
  firmware : r.state.1 = p
  /-- the spin table has the release words -/
  lists : r.state.2.Lists rs
  /-- the first of the cores has selected the spin table -/
  chosen : r.chosen = if rs.isEmpty then none else some (spinTable, SpinTable.enableMethod)

/-- The spin table learns about one more parked core. -/
theorem Learned.visit_parked {p : Psci} {rs : List Release} {r : Resolution (Psci × SpinTable)}
    (h : Learned p rs r) {c : Candidate} {release : Release}
    (hhandles : SpinTable.handles c.compatible = true) (hc : c.release = some release)
    (husable : SpinTable.isUsable release = true) (hnew : release.hwId ∉ rs.map (·.hwId))
    (hroom : rs.length < maxReleases) : Learned p (rs ++ [release]) (arm.visit r c) := by
  obtain ⟨hok, hlists⟩ := h.lists.probe_new hc husable hnew hroom
  have hcompatible : c.compatible = SpinTable.enableMethod := by
    simpa [SpinTable.handles] using hhandles
  have hprobe : (spinTable.probe c r.state).result = .ok () ∧
      (spinTable.probe c r.state).state.1 = p ∧
      (spinTable.probe c r.state).state.2.Lists (rs ++ [release]) :=
    ⟨hok, h.firmware, hlists⟩
  have hlookup : arm.lookup SpinTable.enableMethod = some spinTable := by
    rw [lookup_arm]
    rfl
  unfold visit
  rw [h.chosen, hcompatible]
  cases hrs : rs.isEmpty with
  | true =>
    simp only [hlookup, hprobe.1, if_true]
    refine ⟨hprobe.2.1, hprobe.2.2, ?_⟩
    simp [Resolution.choose]
  | false =>
    simp only [Bool.false_eq_true, if_false, beq_self_eq_true, if_true]
    refine ⟨hprobe.2.1, hprobe.2.2, ?_⟩
    simp [Resolution.probe, h.chosen, hrs]

/-- The candidate of a core that is not parked changes nothing. -/
theorem Learned.visit_other {p : Psci} {rs : List Release} {r : Resolution (Psci × SpinTable)}
    (h : Learned p rs r) {c : Candidate} (hmethod : c.method = none)
    (hhandles : SpinTable.handles c.compatible = false) : Learned p rs (arm.visit r c) := by
  cases hrs : rs.isEmpty with
  | true =>
    have hidle : Idle c :=
      { firmware := fun _ => by rw [hmethod]; rfl
        release := by simp [hhandles] }
    obtain ⟨hopen, hstate⟩ := visit_idle hidle (r := r) (by rw [h.chosen, hrs]; rfl)
    exact
      { firmware := by rw [hstate, h.firmware]
        lists := by rw [hstate]; exact h.lists
        chosen := by rw [hopen, hrs]; rfl }
  | false =>
    have hother : (c.compatible == SpinTable.enableMethod) = false := hhandles
    have hvisit : arm.visit r c = r := by
      unfold visit
      rw [h.chosen, hrs]
      simp [hother]
    rw [hvisit]
    exact h

/-- Candidates that are of no use leave the choice open, and the drivers as they are. -/
theorem foldl_visit_idle {cs : List Candidate} (hcs : ∀ c ∈ cs, Idle c)
    {r : Resolution (Psci × SpinTable)} (hopen : r.chosen = none) :
    (cs.foldl arm.visit r).chosen = none ∧ (cs.foldl arm.visit r).state = r.state := by
  induction cs generalizing r with
  | nil => exact ⟨hopen, rfl⟩
  | cons c cs ih =>
    obtain ⟨hopen', hstate⟩ := visit_idle (hcs c List.mem_cons_self) hopen
    obtain ⟨hend, hsame⟩ := ih (fun c hc => hcs c (List.mem_cons_of_mem _ hc)) hopen'
    exact ⟨hend, hsame.trans hstate⟩

/-- The spin table learns about all parked cores among the nodes. -/
theorem Learned.foldl_visit {p : Psci} {cells : Nat} {nodes : List ν} {rs : List Release}
    {r : Resolution (Psci × SpinTable)} (h : Learned p rs r)
    (hnodup : ((rs ++ nodes.filterMap (parked? reader cells)).map (·.hwId)).Nodup)
    (hroom : (rs ++ nodes.filterMap (parked? reader cells)).length ≤ maxReleases)
    (husable : ∀ release ∈ nodes.filterMap (parked? reader cells), SpinTable.isUsable release = true) :
    Learned p (rs ++ nodes.filterMap (parked? reader cells))
      ((nodes.filterMap (Candidate.ofCore? reader cells)).foldl arm.visit r) := by
  induction nodes generalizing rs r with
  | nil => simpa using h
  | cons node nodes ih =>
    have hparked := parked?_eq reader cells node
    cases hc : Candidate.ofCore? reader cells node with
    | none =>
      simp only [hc, Option.bind_none] at hparked
      simp only [List.filterMap_cons, hc, hparked] at hnodup hroom husable ⊢
      exact ih h hnodup hroom husable
    | some c =>
      obtain ⟨-, hmethod, release, hrelease⟩ := of_ofCore? hc
      simp only [hc, Option.bind_some] at hparked
      cases hhandles : SpinTable.handles c.compatible with
      | false =>
        simp only [hhandles, Bool.false_eq_true, if_false] at hparked
        simp only [List.filterMap_cons, hc, hparked] at hnodup hroom husable ⊢
        exact ih (h.visit_other hmethod hhandles) hnodup hroom husable
      | true =>
        simp only [hhandles, if_true, hrelease] at hparked
        simp only [List.filterMap_cons, hc, hparked] at hnodup hroom husable ⊢
        have hnew : release.hwId ∉ rs.map (·.hwId) := by
          rw [List.map_append, List.map_cons] at hnodup
          intro hmem
          exact List.disjoint_of_nodup_append hnodup hmem List.mem_cons_self
        rw [List.append_cons] at hnodup hroom ⊢
        have hlt : rs.length < maxReleases := by
          rw [List.length_append, List.length_append, List.length_singleton] at hroom
          omega
        have hnext := h.visit_parked hhandles hrelease (husable release List.mem_cons_self) hnew hlt
        exact ih hnext hnodup hroom fun release h => husable release (List.mem_cons_of_mem _ h)

/-- On a machine whose firmware cannot be called, the spin table learns the release words of all
parked cores, and is chosen if there are any. -/
theorem resolve_parked {p : Psci} {t : SpinTable} (hfresh : t.Lists []) {cells : Nat}
    {idle : List Candidate} {cores : List ν} (hidle : ∀ c ∈ idle, Idle c)
    (hnodup : ((cores.filterMap (parked? reader cells)).map (·.hwId)).Nodup)
    (hroom : (cores.filterMap (parked? reader cells)).length ≤ maxReleases)
    (husable : ∀ release ∈ cores.filterMap (parked? reader cells), SpinTable.isUsable release = true) :
    Learned p (cores.filterMap (parked? reader cells))
      (arm.resolve (p, t) (idle ++ cores.filterMap (Candidate.ofCore? reader cells))) := by
  obtain ⟨hopen, hstate⟩ := foldl_visit_idle hidle (r := { state := (p, t) }) rfl
  unfold resolve
  rw [List.foldl_append]
  have hstart : Learned p [] (idle.foldl arm.visit { state := (p, t) }) :=
    { firmware := by rw [hstate]
      lists := by rw [hstate]; exact hfresh
      chosen := hopen }
  exact hstart.foldl_visit (by simpa using hnodup) (by simpa using hroom) husable

end Registry

end BootLoader.Bringup
