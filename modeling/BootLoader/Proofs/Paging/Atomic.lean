import BootLoader.Proofs.Paging.Upward
import BootLoader.Proofs.Paging.Visiting

/-!
# A plan that is made is performed

In upward storage every pointer of a root leads to a child that is not the root itself, so a root is
ready for every plan that is made for it (`Tables.Upward.ready_of_plans`): performing the plan never
stops, and hands out no more frames than the plan counts (`Tables.Upward.apply_of_plans`). Since a
mapping stops only while it has no plan, it is made as a whole or leaves all as it was
(`Tables.Reachable.atomic`).
-/

namespace BootLoader.Paging

variable {F : Format} {n : Nat}

namespace Tables

/-! ## Mapping as a whole -/

/-- Whether `p` is a plan that is made for the table in `root`. -/
def Plans (t : Tables F n) (root : FrameId) (p : Plan) : Prop :=
  (∃ virt phys size memory, t.plan root virt phys size memory = .ok p) ∨
    ∃ start limit memory, t.planIdentity root start limit memory = .ok p

/-- The plan of a call is made for its root. -/
theorem Plans.of_call {t : Tables F n} {root : FrameId} {c : Call} {p : Plan}
    (h : c.plan t root = .ok p) : t.Plans root p := by
  cases c with
  | map virt phys size => exact .inl ⟨_, _, _, _, h⟩
  | mapIdentity start limit => exact .inr ⟨_, _, _, h⟩
  | mapMemory virt phys size memory => exact .inl ⟨_, _, _, _, h⟩

/-- A plan that is made for a root is made for a range. -/
theorem Plans.exists_plan {t : Tables F n} {root : FrameId} {p : Plan} (h : t.Plans root p) :
    ∃ virt phys size memory, t.plan root virt phys size memory = .ok p := by
  rcases h with h | ⟨start, limit, memory, hplan⟩
  · exact h
  · obtain ⟨virt, phys, size, hplan⟩ := plan_of_planIdentity hplan
    exact ⟨virt, phys, size, memory, hplan⟩

/-- A plan that is made is sound, whatever is in the tables. -/
theorem Plans.sound {t : Tables F n} {root : FrameId} {p : Plan} (h : t.Plans root p) :
    p.Sound F := by
  obtain ⟨virt, phys, size, memory, hplan⟩ := h.exists_plan
  obtain ⟨o, ho, -, -, hp⟩ := plan_eq_ok hplan
  exact hp ▸ (Format.outline_ok ho).1.withNewTables _

/-- In a forest, a plan that is made for a root can be performed, and counts the tables that it
lacks. -/
theorem Plans.affords {t : Tables F n} {root : FrameId} {p : Plan} (h : t.Plans root p)
    {low : FrameId} {roots : List FrameId} (hforest : t.Forest low roots) (hr : root ∈ roots) :
    t.Affords root p ∧ p.newTables = t.lacking root p := by
  obtain ⟨virt, phys, size, memory, hplan⟩ := h.exists_plan
  obtain ⟨hafford, -, -, -, -, -, hcount⟩ := hforest.plan_ok hr hplan
  exact ⟨hafford, hcount⟩

/-- In upward storage a root is ready for the plans that are made for it, which count the tables
that they lack. -/
theorem Upward.ready_of_plans {t : Tables F n} (h : t.Upward) (hbase : t.base.toNat % pageSize = 0)
    (hsize : pageSize * n ≤ F.addressLimit) {root : FrameId} (hroot : root < n) {p : Plan}
    (hplan : t.Plans root p) :
    p.newTables = t.lacking root p ∧ p.newTables ≤ t.available ∧
      (p.tier = .intermediate → t.Ready root p 0 p.steps) := by
  obtain ⟨virt, phys, size, memory, hplan⟩ := hplan.exists_plan
  obtain ⟨o, ho, hcheck, hroom, hp⟩ := plan_eq_ok hplan
  obtain ⟨hcount, hfound⟩ :=
    missingTables_ok hroot (h.eq_zero_of_invalid hbase root) (Format.outline_ok ho).1 hcheck
  have hready : o.tier = .intermediate → t.Ready root o 0 o.steps := by
    refine fun hmid j _ hj => (hfound hmid j (by omega)).imp_right ?_
    rintro ⟨c, hc⟩
    exact ⟨c, hc, h.childAt_ne hbase hsize hc⟩
  -- The plan is the outline that was checked, with what was counted.
  refine ⟨?_, hroom, ?_⟩
  · rw [hp]
    exact hcount
  · rw [hp]
    exact hready

/-- In upward storage a plan that is made is performed to its end, and hands out no more frames than
it counts. -/
theorem Upward.apply_of_plans {w : Worksite F n} (h : w.tables.Upward)
    (hplaced : F.Placed n w.tables.base) {root : FrameId} (hroot : root < w.tables.used) {p : Plan}
    (hplan : w.tables.Plans root p) :
    ∃ w', Builder.apply root p w = .ok () w' ∧
      w'.tables.used ≤ w.tables.used + p.newTables := by
  have hrootn : root < n := Nat.lt_of_lt_of_le hroot h.regular.used_le
  obtain ⟨hcount, hroom, hready⟩ :=
    h.ready_of_plans hplaced.base_aligned hplaced.size_le hrootn hplan
  have hcard : (w.tables.vacancies root p).card ≤ p.newTables :=
    hcount.symm ▸ w.tables.card_vacancies_le root hplan.sound
  obtain ⟨es, hrun, hused, -⟩ := Builder.apply_ready h.regular hroot hplaced.base_aligned
    hplan.sound hready (.inl hplaced) (Nat.le_trans hcard hroom)
  refine ⟨_, hrun, ?_⟩
  rw [Worksite.tables_perform]
  omega

/-- In upward storage a call stops only when it has no plan, and leaves everything as it was. -/
theorem Upward.call_error {w w' : Worksite F n} (h : w.tables.Upward)
    (hplaced : F.Placed n w.tables.base) {root : FrameId} (hroot : root < w.tables.used) (c : Call)
    {stop : Stop MapError} (herr : c.run root w = .error stop w') :
    c.plan w.tables root = .error stop ∧ w' = w := by
  cases hplan : c.plan w.tables root with
  | error refusal =>
    rw [Call.run_error hplan] at herr
    cases herr
    exact ⟨rfl, rfl⟩
  | ok p =>
    -- A call with a plan performs it, so it does not stop.
    have htables := Call.tables_announced p w c
    obtain ⟨w₁, hrun, -⟩ := (htables.symm ▸ h : (c.announced F p w).tables.Upward).apply_of_plans
      (htables.symm ▸ hplaced) (htables.symm ▸ hroot) (htables.symm ▸ Plans.of_call hplan)
    rw [Call.run_ok hplan hrun] at herr
    cases herr

/-- In reachable storage a plan that is made, for a range or for an identity mapping, under any
frame in use, is performed to its end and hands out no more frames than it counts. A mapping
therefore stops only when it has no plan, and then leaves every frame, every entry and the number of
frames in use as they were. -/
theorem Reachable.atomic {w : Worksite F n} (h : w.tables.Reachable)
    (hplaced : F.Placed n w.tables.base) {root : FrameId} (hroot : root < w.tables.used) :
    (∀ p, w.tables.Plans root p → ∃ w', Builder.apply root p w = .ok () w' ∧
      w'.tables.used ≤ w.tables.used + p.newTables) ∧
    (∀ virt phys size stop w', Builder.map root virt phys size w = .error stop w' →
      w.tables.plan root virt phys size .normal = .error stop ∧ w' = w) ∧
    ∀ start limit stop w', Builder.mapIdentity root start limit w = .error stop w' →
      w.tables.planIdentity root start limit .normal = .error stop ∧ w' = w := by
  have hupward := h.upward
  refine ⟨fun p => hupward.apply_of_plans hplaced hroot, ?_, ?_⟩
  · exact fun virt phys size stop w' => hupward.call_error hplaced hroot (.map virt phys size)
  · exact fun start limit stop w' => hupward.call_error hplaced hroot (.mapIdentity start limit)

/-- Two frames of the other format, one of them the root. A range under one root entry is performed
with the other frame; a range across two root entries, which lacks two tables, changes nothing. -/
theorem Reachable.atomic_aarch64 :
    let w : Worksite .aarch64 2 := { tables := (Tables.empty .aarch64 2 ⟨0x40080000⟩).takeFrame }
    w.tables.Reachable ∧ Format.Placed .aarch64 2 w.tables.base ∧ 0 < w.tables.used ∧
      (∃ p w', w.tables.plan 0 ⟨0xffffff8000200000⟩ ⟨0x40200000⟩ 0x400000 .normal = .ok p ∧
        Builder.apply 0 p w = .ok () w' ∧ w'.tables.used ≤ w.tables.used + p.newTables) ∧
      ∃ stop w', Builder.map 0 ⟨0xffffff803fe00000⟩ ⟨0x40200000⟩ 0x400000 w = .error stop w' ∧
        w' = w := by
  intro w
  have hreachable : w.tables.Reachable := .allocate (.empty _) (by decide)
  have hplaced : Format.Placed .aarch64 2 w.tables.base := ⟨by decide, by decide⟩
  have hroot : 0 < w.tables.used := by decide
  obtain ⟨happly, hmap, -⟩ := Reachable.atomic hreachable hplaced hroot
  refine ⟨hreachable, hplaced, hroot, ?_, ?_⟩
  · have hplan : w.tables.plan 0 ⟨0xffffff8000200000⟩ ⟨0x40200000⟩ 0x400000 .normal =
        .ok ⟨.intermediate, ⟨0xffffff8000200000⟩, ⟨0x40200000⟩, 2, 0x200000, 1, .normal⟩ := by
      decide +kernel
    obtain ⟨w', hrun, hused⟩ := happly _ (.inl ⟨_, _, _, _, hplan⟩)
    exact ⟨_, w', hplan, hrun, hused⟩
  · have hplan : w.tables.plan 0 ⟨0xffffff803fe00000⟩ ⟨0x40200000⟩ 0x400000 .normal =
        .error (.refused .storageExhausted) := by
      decide +kernel
    have hrun : Builder.map 0 ⟨0xffffff803fe00000⟩ ⟨0x40200000⟩ 0x400000 w = .error _ w :=
      Call.run_error (c := .map _ _ _) hplan
    exact ⟨_, w, hrun, (hmap _ _ _ _ _ hrun).2⟩

end Tables

end BootLoader.Paging
