import BootLoader.Proofs.Paging.Atomic

/-!
# Counting the tables of a plan

Planning refuses a range whose last byte lies under an earlier root entry than the first, so that
the range does not wrap around the root. A range of the intermediate tier that is nearly as long as
the coverage can wrap all the same, and end under the entry at which it starts. Such plans are made,
and they are the only ones whose root entries decrease, and the only ones that count a new table
that performing does not add: their first entry is visited twice (`Tables.Reachable.plan_counts`).
An example is `Tables.not_plan_counts`.
-/

namespace BootLoader.Paging

variable {F : Format} {n : Nat}

namespace Tables

/-- A plan that does not go around the root counts the frames that performing it hands out. -/
theorem Upward.apply_of_not_rounds {w : Worksite F n} (h : w.tables.Upward)
    (hbase : w.tables.base.toNat % pageSize = 0) (hsize : pageSize * n ≤ F.addressLimit)
    {root : FrameId} (hroot : root < w.tables.used) {p : Plan} (hplan : w.tables.Plans root p)
    (hround : ¬p.Rounds F) : ∃ w', Builder.apply root p w = .ok () w' ∧
      w'.tables.used = w.tables.used + p.newTables := by
  have hrootn := Nat.lt_of_lt_of_le hroot h.regular.used_le
  obtain ⟨hcount, hroom, hready⟩ := h.ready_of_plans hbase hsize hrootn hplan
  rw [lacking_eq_card hplan.sound hround] at hcount
  rw [hcount] at hroom ⊢
  obtain ⟨es, hrun, hused, -⟩ :=
    Builder.apply_ready h.regular hroot hbase hplan.sound hready (.inr hround) hroom
  exact ⟨_, hrun, hused⟩

/-- A plan that goes around the root counts its first entry twice, when it is empty. -/
theorem Upward.apply_of_rounds {w : Worksite F n} (h : w.tables.Upward)
    (hplaced : F.Placed n w.tables.base) {root : FrameId} (hroot : root < w.tables.used) {p : Plan}
    (hplan : w.tables.Plans root p) (hround : p.Rounds F) :
    ∃ w', Builder.apply root p w = .ok () w' ∧
      w'.tables.used + (if w.tables.entryAt root (p.slot F 0) == 0 then 1 else 0) =
        w.tables.used + p.newTables := by
  have hrootn := Nat.lt_of_lt_of_le hroot h.regular.used_le
  have hsound := hplan.sound
  obtain ⟨hcount, hroom, hready⟩ :=
    h.ready_of_plans hplaced.base_aligned hplaced.size_le hrootn hplan
  have hcard := w.tables.card_vacancies_le root hsound
  obtain ⟨es, hrun, hused, -⟩ := Builder.apply_ready h.regular hroot hplaced.base_aligned hsound hready
    (.inl hplaced) (by omega)
  have hmid : p.tier = .intermediate := by
    cases htier : p.tier with
    | top => exact absurd hround (hsound.not_rounds htier)
    | intermediate => rfl
  have htwice := missing_eq_card_add w.tables root hsound hmid hround
  unfold lacking at hcount
  unfold vacancies at hused
  rw [hmid] at hcount hused
  dsimp only at hcount hused
  refine ⟨_, hrun, ?_⟩
  rw [Worksite.tables_perform]
  omega

/-- What a plan that is made on reachable storage promises about the root entries that it visits and
the frames that it needs. Its root entries do not decrease from one leaf to the next exactly when it
does not end under the entry at which it starts by going around the root. If so, the leaves under
one entry follow one another, and performing the plan hands out exactly as many frames as it counts,
which are none in the top tier. If it goes around, and the format holds the addresses of the frames,
performing the plan hands out one frame less when its first entry is empty. -/
theorem Reachable.plan_counts {w : Worksite F n} (h : w.tables.Reachable)
    (hbase : w.tables.base.toNat % pageSize = 0) (hsize : pageSize * n ≤ F.addressLimit)
    {root : FrameId} (hroot : root < w.tables.used) {virt : VirtAddr} {phys : PhysAddr}
    {size : UInt64} {memory : Memory} {p : Plan}
    (hplan : w.tables.plan root virt phys size memory = .ok p) :
    ((∀ i j, i ≤ j → j < p.steps → p.slot F i ≤ p.slot F j) ↔ ¬p.Rounds F) ∧
    (¬p.Rounds F →
      (∀ i k j, i ≤ k → k ≤ j → j < p.steps → p.slot F i = p.slot F j → p.slot F k = p.slot F i) ∧
      ∃ w', Builder.apply root p w = .ok () w' ∧ w'.tables.used = w.tables.used + p.newTables) ∧
    (p.tier = .top → ¬p.Rounds F ∧ p.newTables = 0) ∧
    (p.Rounds F → F.Placed n w.tables.base → ∃ w', Builder.apply root p w = .ok () w' ∧
      w'.tables.used + (if w.tables.entryAt root (p.slot F 0) == 0 then 1 else 0) =
        w.tables.used + p.newTables) := by
  have hupward := h.upward
  have hmade : w.tables.Plans root p := .inl ⟨virt, phys, size, memory, hplan⟩
  have hsound := hmade.sound
  obtain ⟨o, ho, -, -, hp⟩ := plan_eq_ok hplan
  have hindex : F.index p.virt 0 ≤ F.index (.ofNat (p.virt.toNat + (p.span - 1))) 0 := by
    obtain ⟨-, hvirt, -, -, -, -, hindex⟩ := Format.outline_ok ho
    rw [hp, show ({ o with newTables := p.newTables } : Plan).virt = virt from hvirt]
    exact hindex
  have hmono := hsound.slot_mono_iff hindex
  refine ⟨hmono, fun hround => ⟨?_, ?_⟩, fun htop => ⟨hsound.not_rounds htop, ?_⟩,
    fun hround hplaced => hupward.apply_of_rounds hplaced hroot hmade hround⟩
  · intro i k j hik hkj hj hsame
    have hle := hmono.mpr hround i k hik (by omega)
    have hge := hmono.mpr hround k j hkj hj
    omega
  · exact hupward.apply_of_not_rounds hbase hsize hroot hmade hround
  · have hrootn := Nat.lt_of_lt_of_le hroot hupward.regular.used_le
    rw [(hupward.ready_of_plans hbase hsize hrootn hmade).1, lacking_of_top _ _ htop]

/-- A range across two root entries, the first of which has no child yet. -/
theorem Reachable.plan_counts_sv39 :
    let w : Worksite .sv39 4 := { tables := (Tables.empty .sv39 4 ⟨0x80400000⟩).takeFrame }
    w.tables.Reachable ∧ w.tables.base.toNat % pageSize = 0 ∧
      pageSize * 4 ≤ Format.addressLimit .sv39 ∧ 0 < w.tables.used ∧
      ∃ p w', w.tables.plan 0 ⟨0x3fe00000⟩ ⟨0x80000000⟩ 0x400000 .normal = .ok p ∧
        Builder.apply 0 p w = .ok () w' ∧ w'.tables.used = w.tables.used + p.newTables := by
  intro w
  have hreachable : w.tables.Reachable := .allocate (.empty _) (by decide)
  have hplan : w.tables.plan 0 ⟨0x3fe00000⟩ ⟨0x80000000⟩ 0x400000 .normal =
      .ok ⟨.intermediate, ⟨0x3fe00000⟩, ⟨0x80000000⟩, 2, 0x200000, 2, .normal⟩ := by
    decide +kernel
  have hsize : pageSize * 4 ≤ Format.addressLimit .sv39 := by decide
  obtain ⟨-, hcounts, -⟩ := Reachable.plan_counts hreachable (by decide) hsize (by decide) hplan
  obtain ⟨-, w', hrun, hused⟩ := hcounts (by decide)
  exact ⟨hreachable, by decide, hsize, by decide, _, w', hplan, hrun, hused⟩

/-- The outline of a range that starts one block after the start of the address space and is as long
as the coverage. -/
def wrapped : Plan :=
  ⟨.intermediate, ⟨0x200000⟩, ⟨0x200000⟩, 262144, 0x200000, 0, .normal⟩

/-- A range that starts one block after the start of the address space and is as long as the
coverage of the root wraps around it, but is planned on empty storage with enough frames. The last
leaf lies under an earlier entry than the one before it, and performing the plan hands out one frame
less than it counts. -/
theorem not_plan_counts :
    let t := (Tables.empty .sv39 514 ⟨0x80400000⟩).takeFrame
    t.Reachable ∧ ∃ p w', t.plan 0 ⟨0x200000⟩ ⟨0x200000⟩ 0x8000000000 .normal = .ok p ∧
      p.slot .sv39 (p.steps - 1) < p.slot .sv39 (p.steps - 2) ∧
      Builder.apply 0 p { tables := t } = .ok () w' ∧ w'.tables.used + 1 = t.used + p.newTables := by
  intro t
  have hreachable : t.Reachable := .allocate (.empty _) (by decide)
  have hplaced : Format.Placed .sv39 514 t.base := by
    refine ⟨by decide, fun frame hframe => ?_⟩
    have hlimit : Format.addressLimit .sv39 = 0x100000000000000 := rfl
    have hstart : t.base.toNat = 0x80400000 := by decide
    rw [hlimit, hstart]
    unfold pageSize
    omega
  have houtline : Format.outline .sv39 ⟨0x200000⟩ ⟨0x200000⟩ 0x8000000000 .normal = .ok wrapped := by
    decide +kernel
  have hsound := (Format.outline_ok houtline).1
  have hempty : ∀ f i, t.entryAt f i = 0 := by
    intro f i
    rw [(Regular.empty (F := .sv39) (n := 514) ⟨0x80400000⟩).entryAt_takeFrame, entryAt_empty]
  have hround : wrapped.Rounds .sv39 := by decide
  -- All the entries of the root are vacant, and the first is counted twice.
  have hvacant : t.vacant 0 wrapped 0 wrapped.steps = Finset.range 512 := by
    ext s
    rw [mem_vacant, Finset.mem_range]
    constructor
    · rintro ⟨⟨j, -, -, rfl⟩, -⟩
      exact wrapped.slot_lt .sv39 j
    · intro hs
      have hj : 512 * s < wrapped.steps := by
        show 512 * s < 262144
        omega
      refine ⟨⟨512 * s, Nat.zero_le _, by omega, ?_⟩, hempty 0 s⟩
      have hblock : wrapped.firstBlock .sv39 = 1 := by decide
      rw [hsound.slot_mid rfl hj, hblock]
      show (1 + 512 * s) / 512 % 512 = s
      omega
  have hlacking : t.lacking 0 wrapped = 513 := by
    have htwice := missing_eq_card_add t 0 hsound rfl hround
    rw [hvacant, Finset.card_range, hempty] at htwice
    exact htwice
  have hforest : t.Forest 0 [0] :=
    (Forest.ofRegular (Regular.empty (F := .sv39) (n := 514) ⟨0x80400000⟩)).addRoot (Nat.le_refl 0)
      (by decide)
  have hcheck : t.missingTables 0 wrapped = .ok 513 := by
    rcases hforest.missingTables_cases List.mem_cons_self hsound with ⟨hok, -⟩ | ⟨j, -, hno, -⟩
    · rw [hok, hlacking]
    · exact absurd (.inl ⟨rfl, hempty _ _⟩) hno
  have hplan : t.plan 0 ⟨0x200000⟩ ⟨0x200000⟩ 0x8000000000 .normal =
      .ok { wrapped with newTables := 513 } := by
    rw [plan_of_outline t 0 houtline, hcheck]
    rfl
  have hmade : t.Plans 0 { wrapped with newTables := 513 } := .inl ⟨_, _, _, _, hplan⟩
  obtain ⟨w', hrun, hused⟩ := hreachable.upward.apply_of_rounds (w := { tables := t }) hplaced
    (show 0 < t.used by decide) hmade hround
  rw [show ({ tables := t } : Worksite .sv39 514).tables = t from rfl, hempty] at hused
  exact ⟨hreachable, _, w', hplan, by decide +kernel, hrun, hused⟩

end Tables

end BootLoader.Paging
