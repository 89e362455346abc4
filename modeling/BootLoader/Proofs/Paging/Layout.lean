import BootLoader.Paging.AddressSpace
import BootLoader.Proofs.Paging.Planning

/-!
# What is known before the first entry is written

`AddressSpace.prepare` hands out the roots and makes the plans of an address space. It changes
nothing but the number of frames in use, so the plans are made for empty roots (`Layout.Planned`).
The tests between them never fault: they compare the virtual ranges of sound plans
(`Plan.overlaps_eq_ok`, `Plan.conflicts_eq_ok`).
-/

namespace BootLoader.Paging

variable {F : Format} {n : Nat}

/-! ## Ranges that meet -/

namespace Plan

/-- Whether the virtual ranges of two plans meet. -/
def Meets (a b : Plan) : Prop :=
  a.virt.toNat < b.virt.toNat + b.span ∧ b.virt.toNat < a.virt.toNat + a.span

/-- Whether the virtual ranges of two plans meet, and their leaves are of different kinds or lead to
different addresses. -/
def Conflicts (a b : Plan) : Prop :=
  a.Meets b ∧ (a.tier ≠ b.tier ∨ a.memory ≠ b.memory ∨ a.relocation ≠ b.relocation)

instance (a b : Plan) : Decidable (a.Meets b) := inferInstanceAs (Decidable (_ ∧ _))

instance (a b : Plan) : Decidable (a.Conflicts b) := inferInstanceAs (Decidable (_ ∧ _))

/-- The last byte of a sound plan is in the address space. -/
theorem Sound.lastVirt_eq_ok {p : Plan} (h : p.Sound F) :
    p.lastVirt = .ok (p.virt.toNat + (p.span - 1)) := by
  have hpos := h.span_pos
  have hend := h.virt_end
  have hspan := h.span_le
  have hcoverage := F.coverage_lt_wordCount
  have hfits : 0 < p.span ∧ p.span < wordCount ∧ p.virt.toNat + (p.span - 1) < wordCount := by
    omega
  -- The last byte is computed from its distance, and none of the sums wraps.
  unfold lastVirt
  rw [if_pos]
  simpa only [Bool.and_eq_true, decide_eq_true_eq, and_assoc] using hfits

/-- The virtual ranges of sound plans are compared without a fault. -/
theorem overlaps_eq_ok {a b : Plan} (ha : a.Sound F) (hb : b.Sound F) :
    a.overlaps b = .ok (decide (a.Meets b)) := by
  have hposA := ha.span_pos
  have hposB := hb.span_pos
  have hiff : a.Meets b ↔ a.virt.toNat ≤ b.virt.toNat + (b.span - 1) ∧
      b.virt.toNat ≤ a.virt.toNat + (a.span - 1) := by
    unfold Meets
    omega
  unfold overlaps
  rw [ha.lastVirt_eq_ok, hb.lastVirt_eq_ok, decide_eq_decide.mpr hiff, Bool.decide_and]
  rfl

/-- Sound plans are tested for a conflict without a fault. -/
theorem conflicts_eq_ok {a b : Plan} (ha : a.Sound F) (hb : b.Sound F) :
    a.conflicts b = .ok (decide (a.Conflicts b)) := by
  unfold conflicts
  rw [overlaps_eq_ok ha hb]
  refine congrArg Except.ok (Bool.eq_iff_iff.mpr ?_)
  simp only [Bool.and_eq_true, Bool.or_eq_true, bne_iff_ne, decide_eq_true_eq, or_assoc]
  exact Iff.rfl

end Plan

/-! ## Plans for empty roots -/

/-- Whether `console` is the plan for the console registers: there is none when there is no such
console, or when its registers are in the range of the self-map. -/
def Tables.ConsolePlanned (t : Tables F n) (root : FrameId) (identity : Plan) :
    Option PhysAddr → Option Plan → Prop
  | none, console => console = none
  | some base, console =>
    ∃ p, t.planIdentity root base (base.offset (UInt64.ofNat pageSize)) .device = .ok p ∧
      console = if p.Meets identity then none else some p

/-- The plans of the self-map. -/
def Layout.selfPlans (layout : Layout) : List Plan := layout.identity :: layout.console.toList

/-- The plans of an address space, as they are made for the tables `t`. -/
structure Layout.Planned (layout : Layout) (t : Tables F n) (space : AddressSpace)
    (footprint : Footprint) (kernel : Region) : Prop where
  /-- the self-map -/
  identity : t.planIdentity space.selfMap footprint.start footprint.limit .normal =
    .ok layout.identity
  /-- the console registers -/
  console : t.ConsolePlanned space.selfMap layout.identity footprint.console layout.console
  /-- the kernel window -/
  window : t.plan space.kernelMap kernel.virtStart kernel.physStart kernel.size .normal =
    .ok layout.window
  /-- under one root, the window conflicts with no other plan -/
  apart : space.selfMap = space.kernelMap →
    ∀ p ∈ layout.selfPlans, ¬layout.window.Conflicts p
  /-- there are frames for the child tables of all plans -/
  room : layout.newTables ≤ t.available

section Sound

variable {t : Tables F n} {low : FrameId} {roots : List FrameId}

/-- The plan for the console registers is that for an identity mapping which does not meet the
self-map. -/
theorem Tables.ConsolePlanned.eq_planIdentity {root : FrameId} {identity : Plan}
    {console : Option PhysAddr} {planned : Option Plan}
    (h : t.ConsolePlanned root identity console planned) {p : Plan} (hp : p ∈ planned.toList) :
    ∃ base ∈ console, ¬p.Meets identity ∧
      t.planIdentity root base (base.offset (UInt64.ofNat pageSize)) .device = .ok p := by
  cases console with
  | none =>
    rw [show planned = none from h] at hp
    exact absurd hp List.not_mem_nil
  | some base =>
    obtain ⟨q, hq, rfl⟩ := h
    split at hp
    · exact absurd hp List.not_mem_nil
    · rename_i hno
      rw [List.mem_singleton.mp hp]
      exact ⟨base, rfl, hno, hq⟩

variable {layout : Layout} {space : AddressSpace} {footprint : Footprint} {kernel : Region}

/-- The plans of the self-map are sound plans of the top tier. -/
theorem Layout.Planned.self_sound (h : layout.Planned t space footprint kernel)
    (hforest : t.Forest low roots) (hself : space.selfMap ∈ roots) :
    ∀ p ∈ layout.selfPlans, p.Sound F ∧ p.tier = .top := by
  obtain ⟨hafford, htop, -⟩ := hforest.planIdentity_ok hself h.identity
  refine List.forall_mem_cons.mpr ⟨⟨hafford.sound, htop⟩, fun p hp => ?_⟩
  obtain ⟨base, -, -, hplan⟩ := h.console.eq_planIdentity hp
  obtain ⟨hafford, htop, -⟩ := hforest.planIdentity_ok hself hplan
  exact ⟨hafford.sound, htop⟩

/-- The plan for the console registers is admitted. -/
theorem Layout.Planned.console_admits (h : layout.Planned t space footprint kernel)
    (hforest : t.Forest low roots) (hself : space.selfMap ∈ roots) :
    ∀ p ∈ layout.console.toList, ∀ j, j < p.steps → t.Admits space.selfMap p j := by
  intro p hp
  obtain ⟨base, -, -, hplan⟩ := h.console.eq_planIdentity hp
  exact (hforest.planIdentity_ok hself hplan).1.admits

/-- The window can be performed under an empty root. -/
theorem Layout.Planned.window_affords (h : layout.Planned t space footprint kernel)
    (hforest : t.Forest low roots) (hkernel : space.kernelMap ∈ roots) :
    t.Affords space.kernelMap layout.window :=
  (hforest.plan_ok hkernel h.window).1

/-- There are frames for the child tables of the window, under an empty root. -/
theorem Layout.Planned.window_room (h : layout.Planned t space footprint kernel)
    (hforest : t.Forest low roots) (hkernel : space.kernelMap ∈ roots)
    (hempty : ∀ i, t.entryAt space.kernelMap i = 0) (hmid : layout.window.tier = .intermediate) :
    t.used + (F.visits layout.window.leafVirt 0 layout.window.steps).length ≤ n := by
  obtain ⟨-, -, -, -, -, -, hnew⟩ := hforest.plan_ok hkernel h.window
  have hroom := h.room
  have hused := hforest.regular.used_le
  rw [Tables.lacking_of_empty hempty hmid] at hnew
  unfold newTables Tables.available at hroom
  omega

end Sound

namespace AddressSpace

/-- The window is refused when it conflicts with one of the plans, and for no other reason. -/
theorem checkWindow_cases (kernel : Region) {window : Plan} (hwindow : window.Sound F)
    {plans : List Plan} (hplans : ∀ p ∈ plans, p.Sound F) :
    (checkWindow kernel window plans = .ok () ∧ ∀ p ∈ plans, ¬window.Conflicts p) ∨
      checkWindow kernel window plans = .refuse (MapError.overlap kernel.virtStart).bootError := by
  induction plans with
  | nil => exact .inl ⟨rfl, fun p hp => absurd hp List.not_mem_nil⟩
  | cons q plans ih =>
    obtain ⟨hq, hplans⟩ := List.forall_mem_cons.mp hplans
    have hconflicts := Plan.conflicts_eq_ok hwindow hq
    by_cases hc : window.Conflicts q
    · right
      unfold checkWindow
      rw [hconflicts, decide_eq_true hc]
      rfl
    · have hstep : checkWindow kernel window (q :: plans) = checkWindow kernel window plans := by
        rw [checkWindow, hconflicts, decide_eq_false hc]
        rfl
      rw [hstep]
      rcases ih hplans with ⟨hok, hall⟩ | herr
      · exact .inl ⟨hok, List.forall_mem_cons.mpr ⟨hc, hall⟩⟩
      · exact .inr herr

/-- The layout is refused when the window conflicts with a plan under the same root, or when there are
too few frames, and for no other reason. -/
theorem checkLayout_cases (space : AddressSpace) (kernel : Region) (layout : Layout)
    (hwindow : layout.window.Sound F) (hplans : ∀ p ∈ layout.selfPlans, p.Sound F)
    (available : Nat) :
    (checkLayout space kernel layout available = .ok () ∧ layout.newTables ≤ available ∧
      (space.selfMap = space.kernelMap → ∀ p ∈ layout.selfPlans, ¬layout.window.Conflicts p)) ∨
      ∃ e, checkLayout space kernel layout available = .refuse e := by
  -- Under split roots the window is compared with no plan.
  have hsound : ∀ p ∈ if space.isSplit then [] else layout.selfPlans, p.Sound F := by
    intro p hp
    split at hp
    · exact absurd hp List.not_mem_nil
    · exact hplans p hp
  have hwindowCases := checkWindow_cases kernel hwindow hsound
  unfold checkLayout
  rw [show layout.identity :: layout.console.toList = layout.selfPlans from rfl]
  rcases hwindowCases with ⟨hok, hall⟩ | herr
  · rw [hok]
    by_cases hroom : available < layout.newTables
    · rw [if_pos hroom]
      exact .inr ⟨_, rfl⟩
    · rw [if_neg hroom]
      refine .inl ⟨rfl, Nat.le_of_not_lt hroom, fun hsame => ?_⟩
      have hsplit : space.isSplit = false := bne_eq_false_iff_eq.mpr hsame
      rw [hsplit] at hall
      exact hall
  · rw [herr]
    exact .inr ⟨_, rfl⟩

section LayOut

variable {low : FrameId} {roots : List FrameId} {space : AddressSpace} {w : Worksite F n}

/-- The console is planned as `Tables.ConsolePlanned` says, or there is no plan; nothing but the log
is changed. -/
theorem planConsole_cases (h : w.tables.Forest low roots) {root : FrameId} (hr : root ∈ roots)
    {identity : Plan} (hidentity : identity.Sound F) (console : Option PhysAddr) :
    (∃ stop, planConsole root identity console w = .error stop w) ∨
      ∃ p log, planConsole root identity console w = .ok p { w with log } ∧
        w.tables.ConsolePlanned root identity console p := by
  cases console with
  | none => exact .inr ⟨none, w.log, rfl, rfl⟩
  | some base =>
  rw [planConsole, Builder.bind_ok (Builder.tables_ok w)]
  cases hplan : w.tables.planIdentity root base (base.offset (UInt64.ofNat pageSize)) .device with
  | error stop =>
    have herr := Builder.mapCause_error (Builder.ofOutcome_error hplan w) MapError.bootError
    exact .inl ⟨_, Builder.bind_error (hplan ▸ herr)⟩
  | ok p =>
    have hp := (h.planIdentity_ok hr hplan).1.sound
    have hoverlaps := Plan.overlaps_eq_ok hp hidentity
    rw [← hplan, Builder.bind_ok (Builder.mapCause_ok (Builder.ofOutcome_ok hplan w) _),
      Builder.bind_ok (Builder.ofFaulting_ok hoverlaps w)]
    right
    by_cases hmeets : p.Meets identity
    · rw [decide_eq_true hmeets]
      exact ⟨none, _, rfl, p, hplan, (if_pos hmeets).symm⟩
    · rw [decide_eq_false hmeets]
      exact ⟨some p, w.log, rfl, p, hplan, (if_neg hmeets).symm⟩

/-- The mappings are planned as `Layout.Planned` says, or there are no plans; nothing but the log is
changed. -/
theorem layOut_cases (h : w.tables.Forest low roots) (hself : space.selfMap ∈ roots)
    (hkernel : space.kernelMap ∈ roots) (footprint : Footprint) (kernel : Region) :
    (∃ stop log, layOut space footprint kernel w = .error stop { w with log }) ∨
      ∃ layout log, layOut space footprint kernel w = .ok layout { w with log } ∧
        layout.Planned w.tables space footprint kernel := by
  unfold layOut
  rw [Builder.bind_ok (Builder.tables_ok w)]
  cases hi : w.tables.planIdentity space.selfMap footprint.start footprint.limit .normal with
  | error stop =>
    have herr := Builder.mapCause_error (Builder.ofOutcome_error hi w) MapError.bootError
    exact .inl ⟨_, w.log, Builder.bind_error (hi ▸ herr)⟩
  | ok identity =>
  have hidentity := (h.planIdentity_ok hself hi).1.sound
  rw [← hi, Builder.bind_ok (Builder.mapCause_ok (Builder.ofOutcome_ok hi w) _)]
  rcases planConsole_cases h hself hidentity footprint.console with ⟨stop, herr⟩ |
    ⟨console, log, hok, hconsole⟩
  · exact .inl ⟨stop, w.log, Builder.bind_error herr⟩
  rw [Builder.bind_ok hok]
  cases hw : w.tables.plan space.kernelMap kernel.virtStart kernel.physStart kernel.size .normal with
  | error stop =>
    have herr := Builder.mapCause_error (Builder.ofOutcome_error hw { w with log })
      MapError.bootError
    exact .inl ⟨_, log, Builder.bind_error (hw ▸ herr)⟩
  | ok window =>
  have hwindow := (h.plan_ok hkernel hw).1.sound
  rw [← hw, Builder.bind_ok (Builder.mapCause_ok (Builder.ofOutcome_ok hw { w with log }) _)]
  have hplans : ∀ p ∈ identity :: console.toList, p.Sound F := by
    refine List.forall_mem_cons.mpr ⟨hidentity, fun p hp => ?_⟩
    obtain ⟨base, -, -, hplan⟩ := hconsole.eq_planIdentity hp
    exact (h.planIdentity_ok hself hplan).1.sound
  rcases checkLayout_cases space kernel ⟨identity, console, window⟩ hwindow hplans
    w.tables.available with ⟨hok, hroom, hapart⟩ | ⟨e, herr⟩
  · rw [Builder.bind_ok (Builder.ofOutcome_ok hok _)]
    exact .inr ⟨_, log, rfl, hi, hconsole, hw, hapart, hroom⟩
  · exact .inl ⟨_, log, Builder.bind_error (Builder.ofOutcome_error herr _)⟩

end LayOut

/-! ## The roots -/

/-- The roots of an address space that has just been started: they are handed out, and empty. -/
structure Rooted (space : AddressSpace) (t : Tables F n) (low : FrameId) (roots : List FrameId) :
    Prop where
  /-- the roots have no children yet -/
  forest : t.Forest low roots
  /-- the root of the self-map is one of them -/
  selfMap_mem : space.selfMap ∈ roots
  /-- the root of the kernel window is one of them -/
  kernelMap_mem : space.kernelMap ∈ roots
  /-- nothing is mapped -/
  entryAt_eq : ∀ r ∈ roots, ∀ i, t.entryAt r i = 0
  /-- the mappings share a root in the formats with one root only -/
  shared : space.selfMap = space.kernelMap → F.splitRoots = false

/-- The frames that are handed out for the roots. -/
def rootEdits (count : Nat) : List Edit := List.replicate count .allocate

/-- The roots are the next frames, or there are no frames left. -/
theorem allocateRoots_cases {w : Worksite F n} (hw : w.tables.Regular) :
    (∃ count stop, allocateRoots w = .error stop (w.perform (rootEdits count))) ∨
      ∃ space count roots, allocateRoots w = .ok space (w.perform (rootEdits count)) ∧
        space.Rooted (w.tables.after (rootEdits count)) w.tables.used roots := by
  unfold allocateRoots
  rcases Nat.eq_or_lt_of_le hw.used_le with hu | hu
  · have herr := Builder.allocate_error BootError.tableStorageExhausted hu
    rw [← w.perform_nil] at herr
    exact .inl ⟨0, _, Builder.bind_error herr⟩
  rw [Builder.bind_ok (Builder.allocate_ok _ hu)]
  have hforest := (Tables.Forest.ofRegular hw).addRoot (Nat.le_refl _) hu
  have hzero : ∀ i, w.tables.takeFrame.entryAt w.tables.used i = 0 := fun i =>
    (Tables.entryAt_takeFrame _ _ _).trans (if_pos rfl)
  cases hsplit : F.splitRoots with
  | false =>
    refine .inr ⟨_, 1, _, rfl, hforest, List.mem_singleton.mpr rfl, List.mem_singleton.mpr rfl, ?_,
      fun _ => hsplit⟩
    intro r hr
    rw [List.mem_singleton.mp hr]
    exact hzero
  | true =>
    -- The second root is handed out next, and does not touch the first.
    have hreg := hforest.regular
    rw [if_pos rfl]
    rcases Nat.eq_or_lt_of_le hreg.used_le with hu' | hu'
    · exact .inl ⟨1, _, Builder.bind_error (Builder.allocate_error _ hu')⟩
    rw [Builder.bind_ok (Builder.allocate_ok _ (show (w.perform [.allocate]).tables.used < n from hu')),
      Worksite.perform_append]
    refine .inr ⟨_, 2, _, rfl, hforest.addRoot (Nat.le_succ _) hu', ?_, ?_, ?_,
      fun hsame => absurd hsame (Nat.ne_of_lt (Nat.lt_succ_self _))⟩
    · exact List.mem_cons_self
    · exact List.mem_cons_of_mem _ List.mem_cons_self
    · intro r hr i
      rcases List.mem_cons.mp hr with rfl | hr
      · exact (hreg.entryAt_takeFrame _ _).trans (hzero i)
      · rw [List.mem_singleton.mp hr]
        exact (Tables.entryAt_takeFrame _ _ _).trans (if_pos rfl)

/-- Before the first entry is written, nothing is done but frames are handed out for the roots. What
is prepared then is planned for empty roots. -/
theorem prepare_cases {w : Worksite F n} (hw : w.tables.Regular) (footprint : Footprint)
    (kernel : Region) :
    (∃ count stop log, prepare footprint kernel w =
      .error stop { w.perform (rootEdits count) with log }) ∨
      ∃ space layout count roots log, prepare footprint kernel w =
          .ok (space, layout) { w.perform (rootEdits count) with log } ∧
        kernel.isConsistent ∧
        space.Rooted (w.tables.after (rootEdits count)) w.tables.used roots ∧
        layout.Planned (w.tables.after (rootEdits count)) space footprint kernel := by
  have hnil : w.perform (rootEdits 0) = w := w.perform_nil
  unfold prepare
  cases hkernel : kernel.isConsistent with
  | false =>
    have hcheck : kernel.check.mapError Stop.refused =
        .error (.refused (.invalidRegion kernel.virtStart kernel.physStart)) := by
      unfold Region.check
      rw [hkernel]
      rfl
    have herr := Builder.ofOutcome_error hcheck w
    rw [← hnil] at herr
    exact .inl ⟨0, _, w.log, Builder.bind_error herr⟩
  | true =>
    have hcheck : (kernel.check.mapError .refused : Outcome BootError Unit) = .ok () := by
      unfold Region.check
      rw [hkernel]
      rfl
    rw [Builder.bind_ok (Builder.ofOutcome_ok hcheck w)]
    rcases allocateRoots_cases hw with ⟨count, stop, herr⟩ | ⟨space, count, roots, hok, hroots⟩
    · exact .inl ⟨count, stop, w.log, Builder.bind_error herr⟩
    rw [Builder.bind_ok hok]
    rcases layOut_cases (w := w.perform (rootEdits count)) hroots.forest hroots.selfMap_mem
      hroots.kernelMap_mem footprint kernel with ⟨stop, log, herr⟩ | ⟨layout, log, hok, hplanned⟩
    · exact .inl ⟨count, stop, log, Builder.bind_error herr⟩
    · rw [Builder.bind_ok hok]
      exact .inr ⟨space, layout, count, roots, log, rfl, rfl, hroots, hplanned⟩

end AddressSpace

end BootLoader.Paging
