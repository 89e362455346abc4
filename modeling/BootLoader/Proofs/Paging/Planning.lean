import BootLoader.Proofs.Paging.Forest

/-!
# What planning checks

The outline of a request is sound, and leads from the requested virtual to the requested physical
base (`Format.outline_ok`). A leaf of a sound plan is *admitted* by a root when its table is still to
be added, or holds zero or that very leaf at its place (`Tables.Admits`). In a forest the check of a
plan finds the first leaf that is not admitted, or none, and counts the visits of root entries under
which a table is missing (`Tables.missingTables_cases`); it never stops in any other way.
-/

namespace BootLoader.Paging

variable {F : Format} {n : Nat}

/-! ## Leaves under one root entry -/

namespace Plan

/-- The number of the block of the intermediate tier, counted from address zero, at which a plan
starts. -/
def firstBlock (F : Format) (p : Plan) : Nat := p.virt.toNat / F.levelSize 1

/-- The leaves of an intermediate plan are in blocks that follow one another. -/
theorem Sound.toNat_leafVirt_div {p : Plan} (h : p.Sound F) (hmid : p.tier = .intermediate) {j : Nat}
    (hj : j < p.steps) : (p.leafVirt j).toNat / F.levelSize 1 = p.firstBlock F + j := by
  have hgranule := h.granule_mid hmid
  unfold firstBlock
  rw [h.toNat_leafVirt hj, hgranule, Nat.add_mul_div_right _ _ (F.levelSize_pos 1)]

/-- The root entry of a leaf of an intermediate plan. -/
theorem Sound.slot_mid {p : Plan} (h : p.Sound F) (hmid : p.tier = .intermediate) {j : Nat}
    (hj : j < p.steps) : p.slot F j = (p.firstBlock F + j) / F.entries % F.entries := by
  unfold slot
  rw [Format.index_eq, Format.levelSize_zero, ← Nat.div_div_eq_div_mul, h.toNat_leafVirt_div hmid hj]

/-- The place of a leaf of an intermediate plan in its child table. -/
theorem Sound.place_mid {p : Plan} (h : p.Sound F) (hmid : p.tier = .intermediate) {j : Nat}
    (hj : j < p.steps) : p.place F j = (p.firstBlock F + j) % F.entries := by
  unfold place
  rw [hmid]
  show F.index (p.leafVirt j) 1 = _
  rw [Format.index_eq, h.toNat_leafVirt_div hmid hj]

/-- A visit ends with the child table, if there are leaves left. -/
theorem Sound.stepsInSlot_eq {p : Plan} (h : p.Sound F) (hmid : p.tier = .intermediate) {j : Nat}
    (hj : j < p.steps) (remaining : Nat) :
    F.stepsInSlot (p.leafVirt j) remaining =
      min remaining (F.entries - (p.firstBlock F + j) % F.entries) := by
  rw [← h.place_mid hmid hj]
  unfold Format.stepsInSlot place
  rw [hmid]
  rfl

/-- The leaves that follow one another in a child table: they lie under one root entry, at places
that follow one another. -/
theorem Sound.slot_place_add {p : Plan} (h : p.Sound F) (hmid : p.tier = .intermediate)
    {j k remaining : Nat} (hk : k < F.stepsInSlot (p.leafVirt j) remaining)
    (hjk : j + k < p.steps) :
    p.slot F (j + k) = p.slot F j ∧ p.place F (j + k) = p.place F j + k := by
  have hj : j < p.steps := Nat.lt_of_le_of_lt (Nat.le_add_right j k) hjk
  rw [h.stepsInSlot_eq hmid hj] at hk
  rw [h.slot_mid hmid hjk, h.slot_mid hmid hj, h.place_mid hmid hjk, h.place_mid hmid hj]
  rw [← Nat.add_assoc]
  generalize p.firstBlock F + j = q at hk ⊢
  have hroom : q % F.entries + k < F.entries := by omega
  have hq : q + k = F.entries * (q / F.entries) + (q % F.entries + k) := by
    rw [← Nat.add_assoc, Nat.div_add_mod]
  constructor
  · rw [hq, Nat.mul_add_div F.entries_pos, Nat.div_eq_of_lt hroom, Nat.add_zero]
  · rw [hq, Nat.mul_add_mod, Nat.mod_eq_of_lt hroom]

/-- The leaves of one visit lie under one root entry. -/
theorem Sound.slot_eq_of_visit {p : Plan} (h : p.Sound F) (hmid : p.tier = .intermediate)
    {step remaining : Nat} (hle : step + remaining ≤ p.steps) (j : Nat) (hge : step ≤ j)
    (hlt : j < step + F.stepsInSlot (p.leafVirt step) remaining) : p.slot F j = p.slot F step := by
  have hinSlot := F.stepsInSlot_le (p.leafVirt step) remaining
  have hadd := h.slot_place_add hmid (show j - step < F.stepsInSlot (p.leafVirt step) remaining
    by omega) (by omega)
  rw [show step + (j - step) = j by omega] at hadd
  exact hadd.1

end Plan

namespace Format

/-- The leaves of an intermediate plan, from number `step` on and `remaining` of them, as visits of
root entries: the number of the first leaf of each visit, for leaves at the addresses `virt`. -/
def visits (F : Format) (virt : Nat → VirtAddr) (step remaining : Nat) : List Nat :=
  if _ : remaining = 0 then []
  else
    let inSlot := F.stepsInSlot (virt step) remaining
    step :: visits F virt (step + inSlot) (remaining - inSlot)
  termination_by remaining
  decreasing_by
    have := F.stepsInSlot_pos (virt step) remaining (by omega)
    omega

/-- There are no visits without leaves. -/
theorem visits_zero (virt : Nat → VirtAddr) (step : Nat) : F.visits virt step 0 = [] := by
  rw [visits, dif_pos rfl]

/-- The first visit, and those of the leaves that are left. -/
theorem visits_of_pos {virt : Nat → VirtAddr} {step remaining : Nat} (h : 0 < remaining) :
    F.visits virt step remaining =
      step :: F.visits virt (step + F.stepsInSlot (virt step) remaining)
        (remaining - F.stepsInSlot (virt step) remaining) := by
  rw [visits, dif_neg (Nat.ne_of_gt h)]

end Format

/-! ## Outlines -/

/-- The tier of an outline has leaves that are not pages, and both bases are aligned to them. -/
theorem Format.selectTier_eq_some {virt : VirtAddr} {phys : PhysAddr} {tier : Tier}
    (h : F.selectTier virt phys = some tier) :
    tier.level + 1 < F.levels ∧ virt.toNat % F.levelSize tier.level = 0 ∧
      phys.toNat % F.levelSize tier.level = 0 := by
  have hfound := List.find?_some h
  have hshift := F.levelShift_le tier.level
  simp only [Bool.and_eq_true, decide_eq_true_eq, Address.isAligned_iff hshift] at hfound
  rw [Format.levelSize_eq]
  exact ⟨hfound.1.1, hfound.1.2, hfound.2⟩

/-- Bases that are aligned to the root entries are mapped in the top tier. -/
theorem Format.selectTier_eq_top {virt : VirtAddr} {phys : PhysAddr}
    (hvirt : virt.toNat % F.levelSize 0 = 0) (hphys : phys.toNat % F.levelSize 0 = 0) :
    F.selectTier virt phys = some .top := by
  have hshift := F.levelShift_le 0
  have hlevel : 0 + 1 < F.levels := F.two_le_levels
  rw [Format.levelSize_eq] at hvirt hphys
  refine List.find?_cons_of_pos ?_
  simp only [Tier.level, Bool.and_eq_true, Address.isAligned_iff hshift]
  exact ⟨⟨decide_eq_true hlevel, hvirt⟩, hphys⟩

/-- An outline is sound, has the requested bases and kind of memory, and has as many leaves as it
takes to cover the requested size. The last leaf does not lie under an earlier root entry than the
first. -/
theorem Format.outline_ok {virt : VirtAddr} {phys : PhysAddr} {size : UInt64} {memory : Memory}
    {p : Plan} (h : F.outline virt phys size memory = .ok p) :
    p.Sound F ∧ p.virt = virt ∧ p.phys = phys ∧ p.memory = memory ∧
      p.steps = (size.toNat + (p.granule - 1)) / p.granule ∧
      F.selectTier virt phys = some p.tier ∧
      F.index virt 0 ≤ F.index (.ofNat (virt.toNat + (p.span - 1))) 0 := by
  cases hsel : F.selectTier virt phys with
  | none =>
    unfold outline at h
    simp only [hsel, bind, Except.bind, throw, throwThe, MonadExceptOf.throw] at h
    split at h <;> cases h
  | some tier =>
    unfold outline at h
    simp only [hsel, bind, Except.bind, pure, Except.pure, throw, throwThe, MonadExceptOf.throw] at h
    split at h
    · cases h
    rename_i hsize
    split at h
    · cases h
    split at h
    · cases h
    rename_i hends
    split at h
    · cases h
    rename_i hroot
    cases h
    have hpos := F.levelSize_pos tier.level
    have hsteps : 0 < (size.toNat + (F.levelSize tier.level - 1)) / F.levelSize tier.level := by
      have hne : size.toNat ≠ 0 := fun h0 => hsize (beq_iff_eq.mpr (UInt64.toNat_inj.mp h0))
      exact Nat.div_pos (by omega) hpos
    have hspan := Nat.mul_pos hsteps hpos
    simp only [Bool.or_eq_true, decide_eq_true_eq, not_or, Nat.not_le, Nat.not_lt] at hends hroot
    obtain ⟨hlevel, hvirt, hphys⟩ := selectTier_eq_some hsel
    -- A range whose last byte is in the address space ends there at the latest.
    have hend : ∀ {a : Nat}, a + ((size.toNat + (F.levelSize tier.level - 1)) /
        F.levelSize tier.level * F.levelSize tier.level - 1) < wordCount →
        a + (size.toNat + (F.levelSize tier.level - 1)) / F.levelSize tier.level *
          F.levelSize tier.level ≤ wordCount := by
      intro a ha
      omega
    exact ⟨⟨hlevel, rfl, hvirt, hphys, hsteps, hend hends.1, hend hends.2, hroot.1⟩,
      rfl, rfl, rfl, rfl, rfl, hroot.2⟩

/-- How many tables are to be added does not matter for soundness. -/
theorem Plan.Sound.withNewTables {p : Plan} (h : p.Sound F) (count : Nat) :
    Plan.Sound F { p with newTables := count } := by
  obtain ⟨hlevel, hgranule, hvirt, hphys, hsteps, hvirtEnd, hphysEnd, hspan⟩ := h
  exact ⟨hlevel, hgranule, hvirt, hphys, hsteps, hvirtEnd, hphysEnd, hspan⟩

/-! ## Checks against the tables -/

namespace Tables

/-- Whether an entry can become `raw` without being replaced: it is zero, or `raw` already. -/
def Takes (t : Tables F n) (frame : FrameId) (index : Nat) (raw : UInt64) : Prop :=
  t.entryAt frame index = 0 ∨ t.entryAt frame index = raw

/-- Whether the table in `root` has room for leaf number `j` of a plan: the table that is to hold
the leaf is missing, or its entry at the place of the leaf can become the leaf. -/
def Admits (t : Tables F n) (root : FrameId) (p : Plan) (j : Nat) : Prop :=
  (p.tier = .intermediate ∧ t.entryAt root (p.slot F j) = 0) ∨
    ∃ frame, t.tableAt root p.tier (p.slot F j) = some frame ∧
      t.Takes frame (p.place F j) (p.leafRaw F j)

/-- The number of visits, of the leaves from number `step` on and `remaining` of them, that find no
child table. -/
def missing (t : Tables F n) (root : FrameId) (p : Plan) (step remaining : Nat) : Nat :=
  (F.visits p.leafVirt step remaining).countP fun j => t.entryAt root (p.slot F j) == 0

/-- What is missing for the first visit, and for the others. -/
theorem missing_of_pos (t : Tables F n) (root : FrameId) (p : Plan) (step : Nat)
    {remaining : Nat} (h : 0 < remaining) :
    t.missing root p step remaining =
      t.missing root p (step + F.stepsInSlot (p.leafVirt step) remaining)
        (remaining - F.stepsInSlot (p.leafVirt step) remaining) +
      if t.entryAt root (p.slot F step) == 0 then 1 else 0 := by
  unfold missing
  rw [Format.visits_of_pos h, List.countP_cons]

/-- No more is missing when no other entries of the root are empty. -/
theorem missing_mono {t t' : Tables F n} {root : FrameId}
    (h : ∀ i, t'.entryAt root i = 0 → t.entryAt root i = 0) (p : Plan) (step remaining : Nat) :
    t'.missing root p step remaining ≤ t.missing root p step remaining := by
  unfold missing
  refine List.countP_mono_left fun j _ hz => ?_
  rw [beq_iff_eq] at hz ⊢
  exact h _ hz

/-- Nothing is missing from tables that hold more. -/
theorem missing_le {t t' : Tables F n} (h : t'.Extends t) (root : FrameId) (p : Plan)
    (step remaining : Nat) : t'.missing root p step remaining ≤ t.missing root p step remaining :=
  missing_mono (fun i hz => Classical.byContradiction fun hne => hne (h.entry_eq root i hne ▸ hz))
    p step remaining

/-- The number of tables that a plan lacks. -/
def lacking (t : Tables F n) (root : FrameId) (p : Plan) : Nat :=
  match p.tier with
  | .top => 0
  | .intermediate => t.missing root p 0 p.steps

/-- A plan of the top tier lacks no table. -/
theorem lacking_of_top (t : Tables F n) (root : FrameId) {p : Plan} (htop : p.tier = .top) :
    t.lacking root p = 0 := by
  unfold lacking
  rw [htop]

/-- A plan lacks no more tables than it lacked when the tables held less. -/
theorem lacking_le {t t' : Tables F n} (h : t'.Extends t) (root : FrameId) (p : Plan) :
    t'.lacking root p ≤ t.lacking root p := by
  unfold lacking
  split
  · exact Nat.le_refl 0
  · exact missing_le h root p 0 p.steps

/-- Under an empty root, a plan of the intermediate tier lacks a table for each visit. -/
theorem lacking_of_empty {t : Tables F n} {root : FrameId} {p : Plan}
    (h : ∀ i, t.entryAt root i = 0) (hmid : p.tier = .intermediate) :
    t.lacking root p = (F.visits p.leafVirt 0 p.steps).length := by
  unfold lacking missing
  rw [hmid]
  exact List.countP_eq_length.mpr fun j _ => beq_iff_eq.mpr (h _)

/-- The check of one leaf, and then of the others. -/
theorem checkLeaves_succ (t : Tables F n) {p : Plan} (hp : p.Sound F) {frame : FrameId}
    (hf : frame < n) {first : Nat} (hfirst : first < p.steps) (count : Nat) :
    (t.Takes frame (p.place F first) (p.leafRaw F first) →
      t.checkLeaves p frame p.tier.level first (count + 1) =
        t.checkLeaves p frame p.tier.level (first + 1) count) ∧
    (¬t.Takes frame (p.place F first) (p.leafRaw F first) →
      t.checkLeaves p frame p.tier.level first (count + 1) =
        Outcome.refuse (.overlap (p.leafVirt first))) := by
  have hread := t.read_eq_ok hf (F.index_lt_entries (p.leafVirt first) p.tier.level)
  rw [checkLeaves, hp.virtAt_eq_ok hfirst, hp.leafAt_eq_ok hfirst]
  simp only [Outcome.ofFaulting, bind, Except.bind, hread]
  unfold Takes Plan.place
  constructor
  · intro htakes
    rw [if_neg (by simpa only [Bool.and_eq_true, bne_iff_ne, ne_eq, not_and_or, Classical.not_not]
      using htakes)]
  · intro htakes
    rw [if_pos (by simpa only [Bool.and_eq_true, bne_iff_ne, ne_eq, not_or] using htakes)]
    rfl

/-- The check of leaves in one table finds the first whose place holds something else, or none. -/
theorem checkLeaves_cases (t : Tables F n) {p : Plan} (hp : p.Sound F) {frame : FrameId}
    (hf : frame < n) {first count : Nat} (hle : first + count ≤ p.steps) :
    (t.checkLeaves p frame p.tier.level first count = .ok () ∧
      ∀ j, first ≤ j → j < first + count → t.Takes frame (p.place F j) (p.leafRaw F j)) ∨
    ∃ j, first ≤ j ∧ j < first + count ∧ ¬t.Takes frame (p.place F j) (p.leafRaw F j) ∧
      (∀ i, first ≤ i → i < j → t.Takes frame (p.place F i) (p.leafRaw F i)) ∧
      t.checkLeaves p frame p.tier.level first count =
        Outcome.refuse (.overlap (p.leafVirt j)) := by
  induction count generalizing first with
  | zero => exact .inl ⟨rfl, fun j hge hlt => by omega⟩
  | succ count ih =>
    obtain ⟨htake, hrefuse⟩ := t.checkLeaves_succ hp hf (show first < p.steps by omega) count
    by_cases htakes : t.Takes frame (p.place F first) (p.leafRaw F first)
    · rw [htake htakes]
      -- The first leaf is in order, so what the others give is what all give.
      have hall : ∀ {b : Nat}, (∀ i, first + 1 ≤ i → i < b →
          t.Takes frame (p.place F i) (p.leafRaw F i)) → ∀ i, first ≤ i → i < b →
          t.Takes frame (p.place F i) (p.leafRaw F i) := by
        intro b hrest i hge hlt
        rcases Nat.eq_or_lt_of_le hge with rfl | hgt
        · exact htakes
        · exact hrest i hgt hlt
      rcases ih (show first + 1 + count ≤ p.steps by omega) with ⟨hok, hrest⟩ | ⟨j, hge, hlt, hno, hrest, herr⟩
      · exact .inl ⟨hok, hall (by simpa only [Nat.add_assoc, Nat.add_comm 1] using hrest)⟩
      · exact .inr ⟨j, by omega, by omega, hno, hall hrest, herr⟩
    · exact .inr ⟨first, Nat.le_refl _, by omega, htakes, fun i hge hlt => by omega,
        hrefuse htakes⟩

/-- A leaf whose table is there is admitted when the table has room for it. -/
theorem admits_iff_of_tableAt {t : Tables F n} {root : FrameId} {p : Plan} {j : Nat} {f : FrameId}
    (hf : t.tableAt root p.tier (p.slot F j) = some f) :
    t.Admits root p j ↔ t.Takes f (p.place F j) (p.leafRaw F j) := by
  constructor
  · rintro (⟨hmid, hz⟩ | ⟨frame, htable, htakes⟩)
    · rw [hmid] at hf
      exact absurd hz (childAt_ne_zero hf)
    · obtain rfl : f = frame := Option.some.inj (hf.symm.trans htable)
      exact htakes
  · intro htakes
    exact .inr ⟨f, hf, htakes⟩

/-- The check of the leaves of an intermediate plan finds the first that is not admitted, or none;
it then counts the tables that are missing. -/
theorem Forest.checkSlots_cases {t : Tables F n} {low : FrameId} {roots : List FrameId}
    (h : t.Forest low roots) {root : FrameId} (hr : root ∈ roots) {p : Plan} (hp : p.Sound F)
    (hmid : p.tier = .intermediate) {step remaining : Nat} (hle : step + remaining ≤ p.steps)
    (added : Nat) :
    (t.checkSlots root p step remaining added = .ok (added + t.missing root p step remaining) ∧
      ∀ j, step ≤ j → j < step + remaining → t.Admits root p j) ∨
    ∃ j, step ≤ j ∧ j < step + remaining ∧ ¬t.Admits root p j ∧
      (∀ i, step ≤ i → i < j → t.Admits root p i) ∧
      t.checkSlots root p step remaining added = Outcome.refuse (.overlap (p.leafVirt j)) := by
  -- As the check recurses: a visit takes at least one of the leaves that are left.
  induction remaining using Nat.strongRecOn generalizing step added with
  | ind remaining ih =>
  rcases Nat.eq_zero_or_pos remaining with rfl | hpos
  · refine .inl ⟨?_, fun j hge hlt => by omega⟩
    rw [checkSlots, dif_pos rfl]
    unfold missing
    rw [Format.visits_zero]
    rfl
  have hstep : step < p.steps := by omega
  have hvisit := F.stepsInSlot_pos (p.leafVirt step) remaining hpos
  have hinSlot := F.stepsInSlot_le (p.leafVirt step) remaining
  have hmissing := t.missing_of_pos root p step hpos
  have hread := t.read_eq_ok (h.root_lt hr) (F.index_lt_entries (p.leafVirt step) 0)
  have hsame := hp.slot_eq_of_visit hmid hle
  rw [checkSlots, dif_neg (Nat.ne_of_gt hpos), hp.virtAt_eq_ok hstep]
  simp only [hread]
  rw [p.index_leafVirt] at *
  generalize F.stepsInSlot (p.leafVirt step) remaining = inSlot at *
  -- What holds of the leaves of this visit and of those that are left holds of all.
  have hall : ∀ {b : Nat}, (∀ i, step ≤ i → i < step + inSlot → t.Admits root p i) →
      (∀ i, step + inSlot ≤ i → i < b → t.Admits root p i) →
      ∀ i, step ≤ i → i < b → t.Admits root p i := by
    intro b hhere hrest i hge hlt
    rcases Nat.lt_or_ge i (step + inSlot) with hin | hout
    · exact hhere i hge hin
    · exact hrest i hout hlt
  have hend : step + inSlot + (remaining - inSlot) = step + remaining := by omega
  rcases h.root_entry root hr (p.slot F step) with hz | ⟨base, attrs, hl⟩ | ⟨c, hc, -, -⟩
  · -- The table is missing, so it will hold nothing but leaves of the plan.
    have hhere : ∀ j, step ≤ j → j < step + inSlot → t.Admits root p j :=
      fun j hge hlt => .inl ⟨hmid, by rw [hsame j hge hlt, hz]⟩
    rw [hz, Format.decode_zero]
    rcases ih (remaining - inSlot) (by omega) (hend ▸ hle) (added + 1) with
      ⟨hok, hrest⟩ | ⟨j, hge, hlt, hno, hrest, herr⟩
    · refine .inl ⟨?_, hall hhere (hend ▸ hrest)⟩
      simp only [hok, hmissing, hz, beq_self_eq_true, if_true]
      congr 1
      omega
    · exact .inr ⟨j, by omega, by omega, hno, hall hhere hrest, herr⟩
  · -- A leaf of the top tier covers all that the child would.
    refine .inr ⟨step, Nat.le_refl _, by omega, ?_, fun i hge hlt => by omega, ?_⟩
    · rintro (⟨-, hz⟩ | ⟨frame, htable, -⟩)
      · exact Format.IsLeaf.ne_zero ⟨base, attrs, hl⟩ hz
      · rw [hmid] at htable
        exact not_isLeaf_of_childAt htable ⟨base, attrs, hl⟩
    · simp only [hl]
  · -- The child is there: its entries decide.
    have hne := childAt_ne_zero hc
    have hadmits : ∀ j, step ≤ j → j < step + inSlot →
        (t.Admits root p j ↔ t.Takes c (p.place F j) (p.leafRaw F j)) :=
      fun j hge hlt => admits_iff_of_tableAt (by rw [hmid, hsame j hge hlt]; exact hc)
    have hcn : c < n := Nat.lt_of_lt_of_le (childAt_lt hc) h.regular.used_le
    obtain ⟨child, hd, hf⟩ := childAt_eq_some.mp hc
    have hcheck := t.checkLeaves_cases hp hcn (show step + inSlot ≤ p.steps by omega)
    rw [hmid] at hcheck
    simp only [hd, hf]
    rcases hcheck with ⟨hok, hhere⟩ | ⟨j, hge, hlt, hno, hbefore, herr⟩
    · have hhere' := fun j hge hlt => (hadmits j hge hlt).mpr (hhere j hge hlt)
      rw [show t.checkLeaves p c 1 step inSlot = .ok () from hok]
      rcases ih (remaining - inSlot) (by omega) (hend ▸ hle) added with
        ⟨hok, hrest⟩ | ⟨j, hge, hlt, hno, hrest, herr⟩
      · refine .inl ⟨?_, hall hhere' (hend ▸ hrest)⟩
        simp only [hok, hmissing, beq_iff_eq, if_neg hne, Nat.add_zero]
      · exact .inr ⟨j, by omega, by omega, hno, hall hhere' hrest, herr⟩
    · refine .inr ⟨j, hge, by omega, ?_, ?_, ?_⟩
      · rwa [hadmits j hge hlt]
      · exact fun i hi hij => (hadmits i hi (by omega)).mpr (hbefore i hi hij)
      · rw [show t.checkLeaves p c 1 step inSlot = _ from herr]
        rfl

/-- The check of a plan finds the first of its leaves that is not admitted, or none; it then counts
the tables that the plan lacks. -/
theorem Forest.missingTables_cases {t : Tables F n} {low : FrameId} {roots : List FrameId}
    (h : t.Forest low roots) {root : FrameId} (hr : root ∈ roots) {p : Plan} (hp : p.Sound F) :
    (t.missingTables root p = .ok (t.lacking root p) ∧ ∀ j, j < p.steps → t.Admits root p j) ∨
    ∃ j, j < p.steps ∧ ¬t.Admits root p j ∧ (∀ i, i < j → t.Admits root p i) ∧
      t.missingTables root p = Outcome.refuse (.overlap (p.leafVirt j)) := by
  unfold missingTables lacking
  cases htier : p.tier with
  | top =>
    have hadmits : ∀ j, t.Admits root p j ↔ t.Takes root (p.place F j) (p.leafRaw F j) :=
      fun j => admits_iff_of_tableAt (by rw [htier]; rfl)
    have hcheck := t.checkLeaves_cases hp (h.root_lt hr) (show 0 + p.steps ≤ p.steps by omega)
    rw [htier] at hcheck
    simp only [Nat.zero_add, Nat.zero_le, true_implies, true_and, ← hadmits] at hcheck
    rcases hcheck with ⟨hok, hall⟩ | ⟨j, hlt, hno, hbefore, herr⟩
    · refine .inl ⟨?_, hall⟩
      rw [show t.checkLeaves p root 0 0 p.steps = .ok () from hok]
      rfl
    · refine .inr ⟨j, hlt, hno, hbefore, ?_⟩
      rw [show t.checkLeaves p root 0 0 p.steps = _ from herr]
      rfl
  | intermediate =>
    have hcheck := h.checkSlots_cases hr hp htier (show 0 + p.steps ≤ p.steps by omega) 0
    simpa only [Nat.zero_add, Nat.zero_le, true_implies, true_and] using hcheck

/-- Whether a plan can be performed for `root`: it is sound, all its leaves are admitted, and there
are frames for the tables that it lacks. -/
structure Affords (t : Tables F n) (root : FrameId) (p : Plan) : Prop where
  /-- the plan has the form of an outline -/
  sound : p.Sound F
  /-- no entry would be replaced -/
  admits : ∀ j, j < p.steps → t.Admits root p j
  /-- there are frames for the new tables -/
  room : t.lacking root p ≤ t.available

/-- The plan for a request with an outline is what the check of the outline gives, as far as there are
frames for the tables that it has found missing. -/
theorem plan_of_outline (t : Tables F n) (root : FrameId) {virt : VirtAddr} {phys : PhysAddr}
    {size : UInt64} {memory : Memory} {o : Plan} (ho : F.outline virt phys size memory = .ok o) :
    t.plan root virt phys size memory =
      match t.missingTables root o with
      | .error stop => .error stop
      | .ok count =>
        if t.available < count then Outcome.refuse .storageExhausted
        else .ok { o with newTables := count } := by
  unfold plan
  rw [ho]
  simp only [Except.mapError, bind, Except.bind, pure, Except.pure]
  cases t.missingTables root o with
  | error stop => rfl
  | ok count =>
    by_cases hroom : t.available < count
    · simp only [if_pos hroom]
      rfl
    · simp only [if_neg hroom]

/-- A plan that is made, for whatever is in the tables, is the outline of its request, with as many
new tables as the check has found missing. -/
theorem plan_eq_ok {t : Tables F n} {root : FrameId} {virt : VirtAddr} {phys : PhysAddr}
    {size : UInt64} {memory : Memory} {p : Plan} (h : t.plan root virt phys size memory = .ok p) :
    ∃ o, F.outline virt phys size memory = .ok o ∧ t.missingTables root o = .ok p.newTables ∧
      p.newTables ≤ t.available ∧ p = { o with newTables := p.newTables } := by
  cases ho : F.outline virt phys size memory with
  | error e =>
    unfold plan at h
    rw [ho] at h
    cases h
  | ok o =>
    rw [t.plan_of_outline root ho] at h
    cases hmissing : t.missingTables root o with
    | error stop =>
      rw [hmissing] at h
      cases h
    | ok count =>
      rw [hmissing] at h
      dsimp only at h
      split at h
      · cases h
      · rename_i hroom
        cases h
        exact ⟨o, rfl, hmissing, Nat.le_of_not_lt hroom, rfl⟩

/-- A plan that is made can be performed, has the requested bases, and covers the requested size
without a leaf too many. -/
theorem Forest.plan_ok {t : Tables F n} {low : FrameId} {roots : List FrameId}
    (h : t.Forest low roots) {root : FrameId} (hr : root ∈ roots) {virt : VirtAddr}
    {phys : PhysAddr} {size : UInt64} {memory : Memory} {p : Plan}
    (hplan : t.plan root virt phys size memory = .ok p) :
    t.Affords root p ∧ p.virt = virt ∧ p.phys = phys ∧ p.memory = memory ∧
      p.steps = (size.toNat + (p.granule - 1)) / p.granule ∧
      F.selectTier virt phys = some p.tier ∧ p.newTables = t.lacking root p := by
  obtain ⟨o, ho, hcheck, hroom, hp⟩ := plan_eq_ok hplan
  obtain ⟨hsound, hvirt, hphys, hmemory, hsteps, htier, -⟩ := Format.outline_ok ho
  rcases h.missingTables_cases hr hsound with ⟨hok, hadmits⟩ | ⟨j, -, -, -, herr⟩
  · rw [hok] at hcheck
    have hcount : t.lacking root o = p.newTables := Except.ok.inj hcheck
    rw [hp]
    exact ⟨⟨hsound.withNewTables _, hadmits, hcount.symm ▸ hroom⟩, hvirt, hphys, hmemory, hsteps,
      htier, hcount.symm⟩
  · rw [herr] at hcheck
    cases hcheck

/-- A plan that is not made is refused: making one never faults. -/
theorem Forest.plan_error {t : Tables F n} {low : FrameId} {roots : List FrameId}
    (h : t.Forest low roots) {root : FrameId} (hr : root ∈ roots) {virt : VirtAddr}
    {phys : PhysAddr} {size : UInt64} {memory : Memory} {stop : Stop MapError}
    (hplan : t.plan root virt phys size memory = .error stop) : ∃ e, stop = .refused e := by
  cases ho : F.outline virt phys size memory with
  | error e =>
    unfold plan at hplan
    rw [ho] at hplan
    cases hplan
    exact ⟨e, rfl⟩
  | ok o =>
    rw [t.plan_of_outline root ho] at hplan
    rcases h.missingTables_cases hr (Format.outline_ok ho).1 with ⟨hok, -⟩ | ⟨j, -, -, -, herr⟩
    · rw [hok] at hplan
      dsimp only at hplan
      split at hplan
      · cases hplan
        exact ⟨_, rfl⟩
      · cases hplan
    · rw [herr] at hplan
      cases hplan
      exact ⟨_, rfl⟩

/-- A plan that is made for an identity mapping, for whatever is in the tables, is sound. It has
leaves of the top tier, and starts and ends at the requested ends rounded to root granules. -/
theorem planIdentity_eq_ok {t : Tables F n} {root : FrameId} {start limit : PhysAddr}
    {memory : Memory} {p : Plan} (h : t.planIdentity root start limit memory = .ok p) :
    p.Sound F ∧ p.tier = .top ∧ p.virt = p.phys.identityMapped ∧
      p.phys = start.alignDown (F.levelShift 0) ∧
      p.phys.toNat + p.span = (limit.alignUp (F.levelShift 0)).toNat := by
  have hshift := F.levelShift_le 0
  have hdown : (start.alignDown (F.levelShift 0)).toNat % F.levelSize 0 = 0 := by
    rw [Address.toNat_alignDown hshift, Format.levelSize_eq, Nat.mul_mod_left]
  have hup : (limit.alignUp (F.levelShift 0)).toNat % F.levelSize 0 = 0 := by
    rw [Format.levelSize_eq]
    exact Address.alignUp_aligned hshift
  unfold planIdentity at h
  dsimp only at h
  split at h
  · cases h
  · rename_i hlt
    obtain ⟨o, ho, -, -, hp⟩ := plan_eq_ok h
    obtain ⟨hsound, hvirt, hphys, -, hsteps, htier, -⟩ := Format.outline_ok ho
    have htop : o.tier = .top :=
      (Option.some.inj ((Format.selectTier_eq_top hdown hdown).symm.trans htier)).symm
    have hgranule := hsound.granule_top htop
    rw [hp]
    refine ⟨hsound.withNewTables _, htop, by rw [hvirt, hphys], hphys, ?_⟩
    show o.phys.toNat + o.span = _
    generalize start.alignDown (F.levelShift 0) = base at *
    generalize limit.alignUp (F.levelShift 0) = top at *
    have hle : base.raw ≤ top.raw := UInt64.le_of_lt (UInt64.not_le.mp hlt)
    -- Both ends are multiples of the granule, so the leaves end where the range ends.
    obtain ⟨b, hb⟩ := Nat.dvd_of_mod_eq_zero hdown
    obtain ⟨m, hm⟩ := Nat.dvd_of_mod_eq_zero hup
    have hsize : (top.raw - base.raw).toNat = o.granule * (m - b) := by
      rw [UInt64.toNat_sub_of_le _ _ hle, hgranule, Nat.mul_sub]
      exact congrArg₂ (· - ·) hm hb
    have hbm : o.granule * b ≤ o.granule * m := by
      rw [hgranule, ← hb, ← hm]
      exact UInt64.le_iff_toNat_le.mp hle
    have hpos := hsound.granule_pos
    have hcount : o.steps = m - b := by
      rw [hsteps, hsize, Nat.mul_add_div hpos, Nat.div_eq_of_lt (by omega), Nat.add_zero]
    unfold Plan.span
    rw [hcount, hphys, hm, hb, ← hgranule, Nat.mul_comm (m - b), Nat.mul_sub]
    omega

/-- A plan for an identity mapping is a plan for a range. -/
theorem plan_of_planIdentity {t : Tables F n} {root : FrameId} {start limit : PhysAddr}
    {memory : Memory} {p : Plan} (h : t.planIdentity root start limit memory = .ok p) :
    ∃ virt phys size, t.plan root virt phys size memory = .ok p := by
  unfold planIdentity at h
  dsimp only at h
  split at h
  · cases h
  · exact ⟨_, _, _, h⟩

/-- A plan for an identity mapping can be performed. It has leaves of the top tier, and starts and
ends at the root granules around the requested range. -/
theorem Forest.planIdentity_ok {t : Tables F n} {low : FrameId} {roots : List FrameId}
    (h : t.Forest low roots) {root : FrameId} (hr : root ∈ roots) {start limit : PhysAddr}
    {memory : Memory} {p : Plan} (hplan : t.planIdentity root start limit memory = .ok p) :
    t.Affords root p ∧ p.tier = .top ∧ p.memory = memory ∧
      p.phys = start.alignDown (F.levelShift 0) ∧ p.virt = p.phys.identityMapped ∧
      p.phys.toNat + p.span = (limit.alignUp (F.levelShift 0)).toNat := by
  obtain ⟨-, htop, hvirt, hphys, hend⟩ := planIdentity_eq_ok hplan
  obtain ⟨virt, phys, size, hrange⟩ := plan_of_planIdentity hplan
  obtain ⟨hafford, -, -, hmemory, -⟩ := h.plan_ok hr hrange
  exact ⟨hafford, htop, hmemory, hphys, hvirt, hend⟩

/-- A plan for an identity mapping that is not made is refused. -/
theorem Forest.planIdentity_error {t : Tables F n} {low : FrameId} {roots : List FrameId}
    (h : t.Forest low roots) {root : FrameId} (hr : root ∈ roots) {start limit : PhysAddr}
    {memory : Memory} {stop : Stop MapError}
    (hplan : t.planIdentity root start limit memory = .error stop) : ∃ e, stop = .refused e := by
  unfold planIdentity at hplan
  dsimp only at hplan
  split at hplan
  · cases hplan
    exact ⟨_, rfl⟩
  · exact h.plan_error hr hplan

end Tables

end BootLoader.Paging
