import BootLoader.Proofs.Paging.Care
import BootLoader.Proofs.Paging.Layout

/-!
# Address spaces whose plans collide

The plans of an address space are compared by their virtual ranges, as numbers. Tables are indexed by
some bits of an address only, so plans whose ranges do not meet can still lie under one root entry
(`Plan.Clashes`), and a window that goes around its root can meet itself (`Plan.Rounds`).
`AddressSpace.careful_assemble_iff` gives the exact condition under which an address space is
constructed with care: nothing is prepared, or what is prepared does not collide
(`Layout.Collides`).
-/

namespace BootLoader.Paging

variable {F : Format} {n : Nat}

/-- Whether performing the plans of an address space, made for the tables `t`, replaces an entry or
stops: the console registers clash with the self-map, the window clashes with one of them under the
same root, or the window goes around the root and the format cannot address its first child. -/
def Layout.Collides (layout : Layout) (space : AddressSpace) (t : Tables F n) : Prop :=
  (∃ p ∈ layout.console.toList, layout.identity.Clashes F p) ∨
    (space.selfMap = space.kernelMap ∧ ∃ p ∈ layout.selfPlans, p.Clashes F layout.window) ∨
      (layout.window.Rounds F ∧ F.addressLimit ≤ t.base.toNat + pageSize * t.used)

instance (layout : Layout) (space : AddressSpace) (t : Tables F n) :
    Decidable (layout.Collides space t) := inferInstanceAs (Decidable (_ ∨ _))

namespace AddressSpace

/-- Whether the outcome of a preparation is an address space whose plans collide. -/
def CollidesIn : EStateM.Result (Stop BootError) (Worksite F n) (AddressSpace × Layout) → Prop
  | .ok (space, layout) w => layout.Collides space w.tables
  | .error _ _ => False

instance : (r : EStateM.Result (Stop BootError) (Worksite F n) (AddressSpace × Layout)) →
    Decidable (CollidesIn r)
  | .ok (space, layout) w => inferInstanceAs (Decidable (layout.Collides space w.tables))
  | .error _ _ => inferInstanceAs (Decidable False)

/-- Whether an address space for the given footprint and kernel is prepared in the tables `t`, and its
plans collide. -/
def Collision (footprint : Footprint) (kernel : Region) (t : Tables F n) : Prop :=
  CollidesIn (prepare footprint kernel { tables := t })

instance (footprint : Footprint) (kernel : Region) (t : Tables F n) :
    Decidable (Collision footprint kernel t) := inferInstanceAs (Decidable (CollidesIn _))

section Fill

variable {low : FrameId} {roots : List FrameId} {space : AddressSpace} {layout : Layout}
  {footprint : Footprint} {kernel : Region}

/-- A plan that is performed under a frame in use is in the account. -/
theorem accounts_perform {root : FrameId} (p : Plan) (said : Journal.Record) {w : Worksite F n}
    (hw : w.tables.Regular) (hroot : root < w.tables.used) :
    Builder.Accounts (perform root p said) w :=
  ((Builder.accounts_apply p hw hroot).mapCause _).bind fun _ _ _ _ => Builder.accounts_say _ _

/-- Saying that a plan has been performed does not matter. -/
theorem careful_perform_iff {root : FrameId} {p : Plan} {said : Journal.Record}
    {w : Worksite F n} :
    Builder.Careful (perform root p said) w ↔ Builder.Careful (Builder.apply root p) w := by
  unfold perform
  rw [Builder.careful_bind_silent fun _ w' => ⟨(), _, Builder.say_ok said w'⟩,
    Builder.careful_mapCause]

/-- The worksite with the plans `ps` performed under the root of the self-map, from the tables `t`
with empty roots. -/
structure Filled (space : AddressSpace) (t : Tables F n) (w : Worksite F n) (ps : List Plan) :
    Prop where
  /-- the storage is in order -/
  regular : w.tables.Regular
  /-- the frames are where they were -/
  base_eq : w.tables.base = t.base
  /-- no frame has been handed out -/
  used_eq : w.tables.used = t.used
  /-- the plans are performed -/
  holds : w.tables.Holds space.selfMap ps
  /-- another root is still empty -/
  other : space.selfMap ≠ space.kernelMap → w.tables.Holds space.kernelMap []

/-- A plan of the top tier is performed under the root of the self-map; it replaces nothing when no
plan before it clashes with it. -/
theorem Filled.perform {t : Tables F n} {w : Worksite F n} {ps : List Plan} {p : Plan}
    (h : space.Filled t w ps) (hself : space.selfMap < t.used) (hp : p.Sound F)
    (htop : p.tier = .top) (said : Journal.Record) :
    ∃ es log, AddressSpace.perform space.selfMap p said w = .ok () { w.perform es with log } ∧
      w.tables.ReachesAll es ∧ (∃ e ∈ es, e ≠ .allocate) ∧
      (w.tables.ReplacesNone es ↔ ∀ q ∈ ps, ¬q.Clashes F p) ∧
      (w.tables.ReplacesNone es → space.Filled t { w.perform es with log } (p :: ps)) := by
  rw [← h.used_eq] at hself
  have hrun := Builder.apply_top (Nat.lt_of_lt_of_le hself h.regular.used_le) hp htop w
  have hreach := Tables.reachesAll_leafEdits hself p 0 p.steps
  refine ⟨p.leafEdits F space.selfMap 0 p.steps, _,
    Builder.bind_ok (Builder.mapCause_ok hrun _), hreach, ?_,
    h.holds.replacesNone_iff h.regular hself hp htop, fun hnone => ?_⟩
  · have hpos := hp.steps_pos
    have hfirst : Edit.write space.selfMap (p.place F 0) (p.leafRaw F 0) ∈
        p.leafEdits F space.selfMap 0 p.steps :=
      Plan.write_mem_leafEdits (Nat.le_refl 0) (by omega)
    exact ⟨_, hfirst, Edit.noConfusion⟩
  · have haccepts := Tables.acceptsAll_iff.mpr ⟨hreach, hnone⟩
    refine ⟨haccepts.regular h.regular, ?_, ?_, h.holds.cons h.regular hself hp htop hnone, ?_⟩
    · rw [← h.base_eq]
      exact Tables.base_after _ _
    · rw [← h.used_eq]
      show (w.tables.after _).used = w.tables.used
      rw [Tables.used_after, p.count_leafEdits, Nat.add_zero]
    · refine fun hne => (h.other hne).of_other h.regular hne.symm haccepts fun f i raw hmem => ?_
      obtain ⟨j, -, -, he⟩ := Plan.mem_leafEdits.mp hmem
      injection he

/-- The window is performed with care, after the plans of the self-map, exactly when it clashes with
none of them under a shared root, and does not come back to a child that the format cannot
address. -/
theorem careful_window_iff {t : Tables F n} (hrooted : space.Rooted t low roots)
    (hplanned : layout.Planned t space footprint kernel) (hbase : t.base.toNat % pageSize = 0)
    (hsize : pageSize * n ≤ F.addressLimit) {w : Worksite F n} (ps : List Plan)
    (hps : ∀ p, p ∈ ps ↔ p ∈ layout.selfPlans) (hfilled : space.Filled t w ps)
    (hwrote : ∃ e ∈ w.edits, e ≠ .allocate) :
    Builder.Careful (perform space.kernelMap layout.window (kernelMapped kernel layout.window)) w ↔
      ¬((space.selfMap = space.kernelMap ∧ ∃ p ∈ layout.selfPlans, p.Clashes F layout.window) ∨
        (layout.window.Rounds F ∧ F.addressLimit ≤ t.base.toNat + pageSize * t.used)) := by
  have hforest := hrooted.forest
  have hmem := hrooted.kernelMap_mem
  have hroot : space.kernelMap < w.tables.used := hfilled.used_eq ▸ (hforest.root_mem _ hmem).2
  have hroom := hplanned.window_room hforest hmem (hrooted.entryAt_eq _ hmem)
  rw [← hfilled.used_eq] at hroom
  obtain ⟨e, he, hwrite⟩ := hwrote
  have hiff := fun ps (hholds : w.tables.Holds space.kernelMap ps) =>
    Builder.careful_apply_iff hfilled.regular hroot (by rw [hfilled.base_eq, hbase]) hsize
      (hplanned.window_affords hforest hmem).sound hholds hroom he hwrite
  rw [hfilled.base_eq, hfilled.used_eq] at hiff
  rw [careful_perform_iff, not_or, not_and]
  -- Under a root of its own, the window meets no other plan.
  by_cases hsame : space.selfMap = space.kernelMap
  · have hclear : (∀ q ∈ ps, ¬q.Clashes F layout.window) ↔
        ¬∃ p ∈ layout.selfPlans, p.Clashes F layout.window := by
      simp only [hps, not_exists, not_and]
    rw [hiff ps (hsame ▸ hfilled.holds), hclear]
    simp only [hsame, true_implies]
  · rw [hiff [] (hfilled.other hsame)]
    simp only [List.not_mem_nil, false_implies, implies_true, true_and, hsame]

/-- Performing the rest of the plans is in the account. -/
theorem accounts_rest (space : AddressSpace) (kernel : Region) (console : Option Plan)
    (window : Plan) {w : Worksite F n} (hw : w.tables.Regular)
    (hself : space.selfMap < w.tables.used) (hkernel : space.kernelMap < w.tables.used) :
    Builder.Accounts (do
      console.forM fun p => perform space.selfMap p (consoleMapped p)
      perform space.kernelMap window (kernelMapped kernel window)) w := by
  have hconsole : Builder.Accounts
      (console.forM fun p => perform space.selfMap p (consoleMapped p)) w := by
    cases console with
    | none => exact .of_eq rfl
    | some p => exact accounts_perform p _ hw hself
  refine hconsole.bind fun _ w' _ h => ?_
  obtain ⟨hreg, hused⟩ := h.regular hw
  exact accounts_perform _ _ hreg (Nat.lt_of_lt_of_le hkernel hused)

/-- The roots are filled with care exactly when the plans do not collide. -/
theorem careful_fill_iff {w : Worksite F n} (hrooted : space.Rooted w.tables low roots)
    (hplanned : layout.Planned w.tables space footprint kernel)
    (hbase : w.tables.base.toNat % pageSize = 0) (hsize : pageSize * n ≤ F.addressLimit) :
    Builder.Careful (fill space footprint kernel layout) w ↔ ¬layout.Collides space w.tables := by
  have hforest := hrooted.forest
  have hw := hforest.regular
  have hself := (hforest.root_mem _ hrooted.selfMap_mem).2
  have hkernel := (hforest.root_mem _ hrooted.kernelMap_mem).2
  obtain ⟨⟨hidentity, htop⟩, hconsole⟩ :=
    List.forall_mem_cons.mp (hplanned.self_sound hforest hrooted.selfMap_mem)
  have hfilled : space.Filled w.tables w [] := ⟨hw, rfl, rfl,
    .nil (hrooted.entryAt_eq _ hrooted.selfMap_mem),
    fun _ => .nil (hrooted.entryAt_eq _ hrooted.kernelMap_mem)⟩
  -- The self-map is the first plan in its root.
  obtain ⟨es, log, hrun, hreach, ⟨e, he, hwrite⟩, hclear, hnext⟩ :=
    hfilled.perform hself hidentity htop (selfMapped footprint layout.identity)
  have hnone := hclear.mpr fun q hq => absurd hq List.not_mem_nil
  have hfilled := hnext hnone
  have hwrote : e ∈ ({ w.perform es with log } : Worksite F n).edits :=
    Array.mem_append_right _ (List.mem_toArray.mpr he)
  have hrest := accounts_rest space kernel layout.console layout.window hfilled.regular
    (hfilled.used_eq ▸ hself) (hfilled.used_eq ▸ hkernel)
  unfold fill Layout.Collides
  rw [Builder.careful_bind_iff hrun hrest, and_iff_right hnone]
  cases hc : layout.console with
  | none =>
    have hwindow := careful_window_iff hrooted hplanned hbase hsize [layout.identity]
      (fun p => by unfold Layout.selfPlans; rw [hc]; rfl) hfilled ⟨e, hwrote, hwrite⟩
    refine Iff.trans hwindow ?_
    simp only [Option.toList_none, List.not_mem_nil, false_and, exists_false, false_or]
  | some p =>
    obtain ⟨hp, hptop⟩ := hconsole p (by rw [hc]; exact List.mem_singleton.mpr rfl)
    obtain ⟨es', log', hrun', hreach', -, hclear', hnext'⟩ :=
      hfilled.perform hself hp hptop (consoleMapped p)
    have hreg := (hreach'.after hfilled.regular).1
    have hused := (hreach'.after hfilled.regular).2
    rw [hfilled.used_eq] at hused
    have hlast := accounts_perform layout.window (kernelMapped kernel layout.window)
      (w := { ({ w.perform es with log } : Worksite F n).perform es' with log := log' }) hreg
      (Nat.lt_of_lt_of_le hkernel hused)
    simp only [List.mem_singleton, forall_eq] at hclear'
    simp only [Option.toList_some, List.mem_singleton, exists_eq_left]
    refine Iff.trans (Builder.careful_bind_iff hrun' hlast) ?_
    rw [hclear', not_or]
    refine and_congr_right fun hno => ?_
    refine careful_window_iff hrooted hplanned hbase hsize [p, layout.identity]
      (fun q => ?_) (hnext' (hclear'.mpr hno)) ⟨e, Array.mem_append_left _ hwrote, hwrite⟩
    unfold Layout.selfPlans
    rw [hc]
    exact List.Perm.mem_iff (List.Perm.swap _ _ _)

/-- Filling the roots is in the account. -/
theorem accounts_fill (footprint : Footprint) (kernel : Region) (layout : Layout)
    {w : Worksite F n} (hw : w.tables.Regular) (hself : space.selfMap < w.tables.used)
    (hkernel : space.kernelMap < w.tables.used) :
    Builder.Accounts (fill space footprint kernel layout) w := by
  refine (accounts_perform _ _ hw hself).bind fun _ w' _ h => ?_
  obtain ⟨hreg, hused⟩ := h.regular hw
  exact accounts_rest space kernel _ _ hreg (Nat.lt_of_lt_of_le hself hused)
    (Nat.lt_of_lt_of_le hkernel hused)

end Fill

/-- Handing out the roots replaces nothing. -/
theorem replacesNone_rootEdits (t : Tables F n) (count : Nat) :
    t.ReplacesNone (rootEdits count) := by
  induction count generalizing t with
  | zero => trivial
  | succ count ih => exact ⟨id, ih t.takeFrame⟩

/-- On any storage that can be reached, and for any footprint and kernel, an address space is
constructed with care exactly when its plans do not collide. -/
theorem careful_assemble_iff {t : Tables F n} (ht : t.Reachable)
    (hbase : t.base.toNat % pageSize = 0) (hsize : pageSize * n ≤ F.addressLimit)
    (footprint : Footprint) (kernel : Region) :
    Builder.Careful (assemble footprint kernel) { tables := t } ↔
      ¬Collision footprint kernel t := by
  have hreg := ht.regular
  unfold Collision
  rcases prepare_cases (w := { tables := t }) hreg footprint kernel with
    ⟨count, stop, log, herr⟩ | ⟨space, layout, count, roots, log, hok, -, hrooted, hplanned⟩
  · -- Nothing is prepared: frames have been handed out at most.
    have hrun : assemble footprint kernel { tables := t } = .error stop _ :=
      Builder.bind_error herr
    rw [herr]
    refine iff_of_true ⟨⟨rootEdits count, ?_, ?_, replacesNone_rootEdits t count⟩, ?_⟩ id
    · rw [Builder.siteAfter_error hrun]
      rfl
    · rw [Builder.siteAfter_error hrun]
      rfl
    · intro stop' w' h e he
      rw [hrun] at h
      cases h
      have hmem : e ∈ #[] ++ (rootEdits count).toArray := he
      rw [Array.empty_append, List.mem_toArray] at hmem
      exact List.eq_of_mem_replicate hmem
  · rw [hok]
    have hself := (hrooted.forest.root_mem _ hrooted.selfMap_mem).2
    have hkernel := (hrooted.forest.root_mem _ hrooted.kernelMap_mem).2
    have hfill := accounts_fill (w := { ({ tables := t } : Worksite F n).perform (rootEdits count)
      with log }) footprint kernel layout hrooted.forest.regular hself hkernel
    refine (Builder.careful_bind_iff hok (hfill.bind fun _ _ _ _ => .of_eq rfl)).trans ?_
    rw [and_iff_right (replacesNone_rootEdits t count)]
    refine (Builder.careful_bind_silent fun _ w' => ⟨space, w'.log, rfl⟩).trans ?_
    exact careful_fill_iff hrooted hplanned ((Tables.base_after t _).symm ▸ hbase) hsize

/-- An ordinary boot with three levels: the window lies under root entries of its own. -/
theorem careful_assemble_sv39 :
    Builder.Careful (assemble ⟨⟨0x80200000⟩, ⟨0x80234000⟩, some ⟨0x10000000⟩⟩
      (.place 0x80400000 0x80600000 0xffffffc080200000 0xffffffc080201000))
      { tables := .empty .sv39 4 ⟨0x80300000⟩ } :=
  (careful_assemble_iff (.empty _) (by decide) (by decide) _ _).mpr (by decide +kernel)

/-- With three levels, a window whose root entry is that of the loader is refused after the self-map
has been written; with two levels, it replaces the self-map. -/
theorem not_careful_assemble :
    ¬Builder.Careful (assemble ⟨⟨0x80200000⟩, ⟨0x80234000⟩, none⟩
        (.place 0x40200000 0x40400000 0xffffff8080200000 0xffffff8080200000))
        { tables := .empty .sv39 4 ⟨0x80400000⟩ } ∧
      ¬Builder.Careful (assemble ⟨⟨0x80200000⟩, ⟨0x80234000⟩, none⟩
        (.place 0x80400000 0x80600000 0xffffffff80000000 0xffffffff80001000))
        { tables := .empty .sv32 1 ⟨0x80300000⟩ } := by
  constructor
  · apply Builder.not_careful_of_stop
    decide +kernel
  · apply Builder.not_careful_of_replaces
    decide +kernel

end AddressSpace

end BootLoader.Paging
