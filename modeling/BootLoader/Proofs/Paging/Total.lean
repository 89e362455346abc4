import BootLoader.Proofs.Paging.Faultless

/-!
# Mapping is total

For storage whose frames are pages of the address space, every request has an answer: planning,
performing a plan that has been made, calls and the assembly of an address space end with a value or a
refusal, and plans are compared without a fault (`Tables.Reachable.total`). A fault is raised where a
table is indexed beyond its end, an address is encoded that its entry cannot hold, or the distance of
a leaf or the end of a plan is not a word. The other sums, differences and products are taken on
natural numbers as they come; `Plan.Bounded` and `Tables.Bounded` say of each that it is a word, and
that nothing is taken from a smaller number.
-/

namespace BootLoader.Paging

variable {F : Format} {n : Nat}

namespace Format

/-- A visit starts at one of the leaves. -/
theorem of_mem_visits {virt : Nat → VirtAddr} {step remaining j : Nat}
    (h : j ∈ F.visits virt step remaining) : step ≤ j ∧ j < step + remaining := by
  induction remaining using Nat.strongRecOn generalizing step with
  | ind remaining ih =>
  rcases Nat.eq_zero_or_pos remaining with rfl | hpos
  · rw [visits_zero] at h
    cases h
  have hvisit := F.stepsInSlot_pos (virt step) remaining hpos
  have hinSlot := F.stepsInSlot_le (virt step) remaining
  rw [visits_of_pos hpos] at h
  rcases List.mem_cons.mp h with rfl | hrest
  · exact ⟨Nat.le_refl _, by omega⟩
  · have := ih _ (by omega) hrest
    omega

/-- There are no more visits than leaves. -/
theorem length_visits_le (virt : Nat → VirtAddr) (step remaining : Nat) :
    (F.visits virt step remaining).length ≤ remaining := by
  induction remaining using Nat.strongRecOn generalizing step with
  | ind remaining ih =>
  rcases Nat.eq_zero_or_pos remaining with rfl | hpos
  · simp [visits_zero]
  have hvisit := F.stepsInSlot_pos (virt step) remaining hpos
  have hinSlot := F.stepsInSlot_le (virt step) remaining
  have hrest := ih (remaining - F.stepsInSlot (virt step) remaining) (by omega)
    (step + F.stepsInSlot (virt step) remaining)
  rw [visits_of_pos hpos, List.length_cons]
  omega

/-- Whether a plan has been made for some storage. -/
def Accepts (F : Format) (p : Plan) : Prop :=
  ∃ (n : Nat) (t : Tables F n) (root : FrameId), t.Plans root p

/-- A plan that has been made is sound. -/
theorem Accepts.sound {p : Plan} (h : F.Accepts p) : p.Sound F := by
  obtain ⟨n, t, root, hplan⟩ := h
  exact hplan.sound

end Format

/-! ## Words -/

/-- The numbers that are computed from a plan while it is checked and performed: each is a word, and
nothing is taken from a smaller number. -/
structure Plan.Bounded (F : Format) (p : Plan) : Prop where
  /-- the leaves are above the last level -/
  level_lt : p.tier.level + 1 < F.levels
  /-- the size of a leaf is a bit of a word -/
  shift_lt : F.levelShift p.tier.level < 64
  /-- sizes are divided by the size of a leaf -/
  granule_pos : 0 < p.granule
  /-- there is a last byte -/
  span_pos : 0 < p.span
  /-- the size of all leaves is a word, and so are their number and the distance of each -/
  span_lt : p.span < wordCount
  /-- the last virtual byte is in the address space -/
  virt_last : p.virt.toNat + (p.span - 1) < wordCount
  /-- the last physical byte is in the address space -/
  phys_last : p.phys.toNat + (p.span - 1) < wordCount
  /-- a visit starts at a leaf, whose place is in a table, and ends with the leaves at the latest -/
  visit_le : ∀ j ∈ F.visits p.leafVirt 0 p.steps, j < p.steps ∧
    F.index (p.leafVirt j) 1 < F.entries ∧
      j + F.stepsInSlot (p.leafVirt j) (p.steps - j) ≤ p.steps
  /-- no more tables are counted than there are leaves -/
  visits_le : (F.visits p.leafVirt 0 p.steps).length ≤ p.steps

/-- The numbers of a sound plan are words. -/
theorem Plan.Sound.bounded {p : Plan} (h : p.Sound F) : p.Bounded F := by
  have hpos := h.span_pos
  have hvirt := h.virt_end
  have hphys := h.phys_end
  refine ⟨h.level_lt, F.levelShift_lt _, h.granule_pos, hpos,
    Nat.lt_of_le_of_lt h.span_le F.coverage_lt_wordCount, by omega, by omega, fun j hj => ?_,
    Format.length_visits_le _ _ _⟩
  have hlt := (Format.of_mem_visits hj).2
  have hinSlot := F.stepsInSlot_le (p.leafVirt j) (p.steps - j)
  exact ⟨by omega, F.index_lt_entries _ _, by omega⟩

namespace Tables

/-- The numbers that are computed from storage: each is a word, and nothing is taken from a smaller
number. -/
structure Bounded (t : Tables F n) : Prop where
  /-- the size of a block is a bit of a word -/
  shift_lt : ∀ level, F.levelShift level < 64
  /-- what a root covers is a word -/
  coverage_lt : F.coverage < wordCount
  /-- the free frames are those that are not in use -/
  used_le : t.used ≤ n
  /-- a frame starts in the address space -/
  frame_lt : ∀ frame, frame < n → t.base.toNat + pageSize * frame < wordCount
  /-- the tables that the plans of an address space add are counted by a word -/
  newTables_lt : ∀ layout : Layout,
    (∀ p ∈ layout.window :: layout.selfPlans, ∃ (t' : Tables F n) (root : FrameId),
      t'.Plans root p) → layout.newTables < wordCount

/-- A plan adds no more tables than there are frames. -/
theorem Plans.newTables_le {t : Tables F n} {root : FrameId} {p : Plan} (h : t.Plans root p) :
    p.newTables ≤ n := by
  obtain ⟨virt, phys, size, memory, hplan⟩ := h.exists_plan
  obtain ⟨o, -, -, hroom, -⟩ := plan_eq_ok hplan
  exact Nat.le_trans hroom (Nat.sub_le _ _)

/-- The numbers of regular storage in the address space are words. -/
theorem Regular.bounded {t : Tables F n} (h : t.Regular)
    (hend : t.base.toNat + pageSize * n ≤ wordCount) : t.Bounded := by
  refine ⟨F.levelShift_lt, F.coverage_lt_wordCount, h.used_le, fun frame hframe => ?_,
    fun layout hplans => ?_⟩
  · have hlt := Nat.mul_lt_mul_of_pos_left hframe (show 0 < pageSize by decide)
    omega
  · obtain ⟨hwindow, hself⟩ := List.forall_mem_cons.mp hplans
    obtain ⟨hidentity, hconsole⟩ := List.forall_mem_cons.mp hself
    have hle : ∀ {p : Plan}, (∃ (t' : Tables F n) (root : FrameId), t'.Plans root p) →
        p.newTables ≤ n := fun ⟨t', root, hplan⟩ => hplan.newTables_le
    have hwindow := hle hwindow
    have hidentity := hle hidentity
    have hconsole : (layout.console.map Plan.newTables).getD 0 ≤ n := by
      cases hc : layout.console with
      | none => exact Nat.zero_le n
      | some p => exact hle (hconsole p (by simp [hc]))
    -- Three times the frames of an address space are far fewer than its bytes.
    unfold Layout.newTables pageSize at *
    have hwords := wordCount_eq
    omega

end Tables

/-! ## Totality -/

/-- What can be asked at a worksite, with the answer that each request has: a value or a refusal, by
way of words alone. -/
structure Worksite.Total (w : Worksite F n) (root : FrameId) : Prop where
  /-- a range is planned -/
  plan : ∀ virt phys size memory, (w.tables.plan root virt phys size memory).Faultless
  /-- an identity mapping is planned -/
  planIdentity : ∀ start limit memory, (w.tables.planIdentity root start limit memory).Faultless
  /-- a plan is performed, also when it was made for other tables -/
  apply : ∀ p, F.Accepts p → (Builder.apply root p).Faultless w
  /-- a range is mapped -/
  map : ∀ virt phys size, (Builder.map root virt phys size).Faultless w
  /-- a range is mapped to itself -/
  mapIdentity : ∀ start limit, (Builder.mapIdentity root start limit).Faultless w
  /-- the ranges of two plans are compared -/
  overlaps : ∀ p q, F.Accepts p → F.Accepts q → ∃ answer, p.overlaps q = .ok answer
  /-- two plans are tested for a conflict -/
  conflicts : ∀ p q, F.Accepts p → F.Accepts q → ∃ answer, p.conflicts q = .ok answer
  /-- an address space is assembled -/
  assemble : ∀ footprint kernel, (AddressSpace.assemble footprint kernel).Faultless w
  /-- the plan that is checked against the tables is computed by words -/
  outline_bounded : ∀ virt phys size memory o, F.outline virt phys size memory = .ok o →
    o.Bounded F
  /-- the size of an identity mapping is the distance of its ends -/
  identity_span : ∀ start limit memory p, w.tables.planIdentity root start limit memory = .ok p →
    (start.alignDown (F.levelShift 0)).toNat + p.span = (limit.alignUp (F.levelShift 0)).toNat
  /-- a plan that has been made is performed and compared by words -/
  plan_bounded : ∀ p, F.Accepts p → p.Bounded F
  /-- the storage is used by words -/
  tables_bounded : w.tables.Bounded

/-- In reachable storage, at a page and within the address space, and under any frame in use, every
request is answered without a fault. -/
theorem Tables.Reachable.total {w : Worksite F n} (h : w.tables.Reachable)
    (hbase : w.tables.base.toNat % pageSize = 0)
    (hend : w.tables.base.toNat + pageSize * n ≤ wordCount) {root : FrameId}
    (hroot : root < w.tables.used) : w.Total root := by
  have hupward := h.upward
  have hused := hupward.regular.used_le
  have hrootn : root < n := Nat.lt_of_lt_of_le hroot hused
  exact {
    plan := Tables.plan_faultless hrootn hused
    planIdentity := Tables.planIdentity_faultless hrootn hused
    apply := fun p hp => Builder.apply_faultless hupward hbase hroot hp.sound
    map := fun virt phys size => Builder.call_faultless hupward hbase hroot (.map virt phys size)
    mapIdentity := fun start limit =>
      Builder.call_faultless hupward hbase hroot (.mapIdentity start limit)
    overlaps := fun p q hp hq => ⟨_, Plan.overlaps_eq_ok hp.sound hq.sound⟩
    conflicts := fun p q hp hq => ⟨_, Plan.conflicts_eq_ok hp.sound hq.sound⟩
    assemble := AddressSpace.assemble_faultless hupward hbase
    outline_bounded := fun virt phys size memory o ho => (Format.outline_ok ho).1.bounded
    identity_span := fun start limit memory p hp => by
      obtain ⟨-, -, -, hphys, hspan⟩ := Tables.planIdentity_eq_ok hp
      rw [← hphys, hspan]
    plan_bounded := fun p hp => hp.sound.bounded
    tables_bounded := hupward.regular.bounded hend }

/-- One frame in the last page of the address space. -/
theorem Tables.Reachable.total_sv48 :
    let w : Worksite .sv48 1 :=
      { tables := (Tables.empty .sv48 1 ⟨0xfffffffffffff000⟩).takeFrame }
    w.tables.Reachable ∧ w.tables.base.toNat % pageSize = 0 ∧
      w.tables.base.toNat + pageSize * 1 = wordCount ∧ 0 < w.tables.used ∧ w.Total 0 := by
  intro w
  have hreachable : w.tables.Reachable := .allocate (.empty _) (by decide)
  have hbase : w.tables.base.toNat % pageSize = 0 := by decide
  have hend : w.tables.base.toNat + pageSize * 1 = wordCount := by decide
  have hroot : 0 < w.tables.used := by decide
  exact ⟨hreachable, hbase, hend, hroot,
    Tables.Reachable.total hreachable hbase (Nat.le_of_eq hend) hroot⟩

end BootLoader.Paging
