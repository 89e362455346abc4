import BootLoader.Proofs.Paging.Atomic
import BootLoader.Proofs.Paging.Layout

/-!
# Mapping does not fault

A computation is *faultless* when it ends with a value or with a refusal
(`Outcome.Faultless`, `Builder.Faultless`). What is planned is faultless for every request, whatever
the tables hold (`Tables.plan_faultless`, `Tables.planIdentity_faultless`). What is performed is
faultless for every sound plan in upward storage at a page, whether the plan was made for these
tables or not (`Builder.apply_faultless`), and so are calls (`Builder.call_faultless`) and the
assembly of an address space (`AddressSpace.assemble_faultless`). Refusals are told apart from faults
step by step: each rule follows one way in which computations are put together.
-/

namespace BootLoader

/-- Whether a computation gives a value or is refused. -/
def Outcome.Faultless {ε α : Type} (o : Outcome ε α) : Prop := ∀ fault, o ≠ .error (.fault fault)

namespace Outcome.Faultless

variable {ε α : Type}

/-- A value is given without a fault. -/
theorem of_ok {o : Outcome ε α} {a : α} (h : o = .ok a) : o.Faultless := by
  intro fault hfault
  cases h.symm.trans hfault

/-- A refusal is not a fault. -/
theorem of_refuse {o : Outcome ε α} {e : ε} (h : o = .refuse e) : o.Faultless := by
  intro fault hfault
  cases h.symm.trans hfault

end Outcome.Faultless

namespace Paging

variable {F : Format} {n : Nat}

/-! ## Planning -/

namespace Tables

variable {t : Tables F n} {root : FrameId}

/-- The check of an intermediate plan is faultless, whatever the entries of the root say. -/
theorem checkSlots_faultless (hroot : root < n) (hused : t.used ≤ n) {p : Plan} (hp : p.Sound F)
    (hmid : p.tier = .intermediate) {step remaining : Nat} (hle : step + remaining ≤ p.steps)
    (added : Nat) : (t.checkSlots root p step remaining added).Faultless := by
  -- As the check recurses: a visit takes at least one of the leaves that are left.
  induction remaining using Nat.strongRecOn generalizing step added with
  | ind remaining ih =>
  rcases Nat.eq_zero_or_pos remaining with rfl | hpos
  · exact .of_ok (by rw [checkSlots, dif_pos rfl])
  have hvisit := F.stepsInSlot_pos (p.leafVirt step) remaining hpos
  have hinSlot := F.stepsInSlot_le (p.leafVirt step) remaining
  have hread := t.read_eq_ok hroot (p.slot_lt F step)
  rw [checkSlots, dif_neg (Nat.ne_of_gt hpos), hp.virtAt_eq_ok (by omega)]
  simp only [p.index_leafVirt, hread]
  generalize F.stepsInSlot (p.leafVirt step) remaining = inSlot at *
  have hrest : ∀ added,
      (t.checkSlots root p (step + inSlot) (remaining - inSlot) added).Faultless :=
    fun added => ih (remaining - inSlot) (by omega) (by omega) added
  cases F.decode (t.entryAt root (p.slot F step)) 0 with
  | leaf base attrs => exact .of_refuse rfl
  | invalid => exact hrest _
  | next child =>
    dsimp only
    cases hf : t.frameAt child with
    | none => exact .of_refuse rfl
    | some c =>
      have hcn : c < n := Nat.lt_of_lt_of_le (frameAt_lt hf) hused
      have hcheck := t.checkLeaves_cases hp hcn (show step + inSlot ≤ p.steps by omega)
      rw [show p.tier.level = 1 by rw [hmid]; rfl] at hcheck
      rcases hcheck with ⟨hok, -⟩ | ⟨j, -, -, -, -, herr⟩
      · simp only [hok]
        exact hrest _
      · simp only [herr]
        exact .of_refuse rfl

/-- The check of a sound plan is faultless. -/
theorem missingTables_faultless (hroot : root < n) (hused : t.used ≤ n) {p : Plan}
    (hp : p.Sound F) : (t.missingTables root p).Faultless := by
  unfold missingTables
  cases htier : p.tier with
  | top =>
    have hcheck := t.checkLeaves_cases hp hroot (Nat.le_of_eq (Nat.zero_add p.steps))
    rw [htier] at hcheck
    rcases hcheck with ⟨hok, -⟩ | ⟨j, -, -, -, -, herr⟩
    · exact .of_ok (by rw [show t.checkLeaves p root 0 0 p.steps = _ from hok]; rfl)
    · exact .of_refuse (by rw [show t.checkLeaves p root 0 0 p.steps = _ from herr]; rfl)
  | intermediate =>
    exact checkSlots_faultless hroot hused hp htier (Nat.le_of_eq (Nat.zero_add p.steps)) 0

/-- Planning a range is faultless, whatever the range and the tables. -/
theorem plan_faultless (hroot : root < n) (hused : t.used ≤ n) (virt : VirtAddr) (phys : PhysAddr)
    (size : UInt64) (memory : Memory) : (t.plan root virt phys size memory).Faultless := by
  cases ho : F.outline virt phys size memory with
  | error e =>
    have hrefused : t.plan root virt phys size memory = .refuse e := by
      unfold plan
      rw [ho]
      rfl
    exact .of_refuse hrefused
  | ok o =>
    intro fault
    rw [t.plan_of_outline root ho]
    cases hcheck : t.missingTables root o with
    | error stop =>
      rintro ⟨⟩
      exact missingTables_faultless hroot hused (Format.outline_ok ho).1 fault hcheck
    | ok count =>
      dsimp only
      split <;> rintro ⟨⟩

/-- Planning an identity mapping is faultless. -/
theorem planIdentity_faultless (hroot : root < n) (hused : t.used ≤ n) (start limit : PhysAddr)
    (memory : Memory) : (t.planIdentity root start limit memory).Faultless := by
  unfold planIdentity
  dsimp only
  split
  · exact .of_refuse rfl
  · exact plan_faultless hroot hused _ _ _ _

end Tables

/-! ## Performing -/

namespace Builder

variable {ε δ α β : Type}

/-- Whether a computation gives a value or is refused when it is started at `w`. -/
def Faultless (b : Builder F n ε α) (w : Worksite F n) : Prop :=
  ∀ fault w', b w ≠ .error (.fault fault) w'

namespace Faultless

variable {w : Worksite F n}

/-- A computation that gives a value. -/
theorem of_ok {b : Builder F n ε α} {a : α} {w' : Worksite F n} (h : b w = .ok a w') :
    b.Faultless w := by
  intro fault w'' hfault
  cases h.symm.trans hfault

/-- A computation that is refused. -/
theorem of_refused {b : Builder F n ε α} {e : ε} {w' : Worksite F n}
    (h : b w = .error (.refused e) w') : b.Faultless w := by
  intro fault w'' hfault
  cases h.symm.trans hfault

/-- One computation after another. -/
theorem bind {x : Builder F n ε α} {f : α → Builder F n ε β} (hx : x.Faultless w)
    (hf : ∀ a w', x w = .ok a w' → (f a).Faultless w') : (x >>= f).Faultless w := by
  intro fault w''
  cases h : x w with
  | ok a w' =>
    rw [bind_ok h]
    exact hf a w' h fault w''
  | error stop w' =>
    rw [bind_error h]
    rintro ⟨⟩
    exact hx _ _ h

/-- A computation that continues with the tables as they are. -/
theorem bind_tables {f : Tables F n → Builder F n ε β} (hf : (f w.tables).Faultless w) :
    (tables >>= f).Faultless w := hf

/-- A computation that continues when a value is given. -/
theorem bind_ofOutcome {o : Outcome ε α} {f : α → Builder F n ε β} (ho : o.Faultless)
    (hf : ∀ a, o = .ok a → (f a).Faultless w) : (ofOutcome o >>= f).Faultless w := by
  intro fault w'
  cases o with
  | ok a => exact hf a rfl fault w'
  | error stop =>
    rintro ⟨⟩
    exact ho fault rfl

/-- The same computation with its causes in other terms. -/
theorem mapCause {b : Builder F n ε α} (h : b.Faultless w) (f : ε → δ) :
    (Builder.mapCause f b).Faultless w := by
  intro fault w'
  cases hb : b w with
  | ok a w'' => simp [mapCause_ok hb]
  | error stop w'' =>
    rw [mapCause_error hb]
    cases stop with
    | refused e => simp [Stop.map]
    | fault broken => exact absurd hb (h broken w'')

/-- A computation that continues when a plan is made. -/
theorem bind_plan {o : Outcome ε α} {g : ε → δ} {f : α → Builder F n δ β} (ho : o.Faultless)
    (hf : ∀ a, o = .ok a → (f a).Faultless w) :
    (Builder.mapCause g (ofOutcome o) >>= f).Faultless w := by
  intro fault w'
  cases o with
  | ok a => exact hf a rfl fault w'
  | error stop =>
    cases stop with
    | refused e => rintro ⟨⟩
    | fault broken => exact absurd rfl (ho broken)

end Faultless

/-- Handing out a frame is faultless. -/
theorem allocate_faultless (exhausted : ε) (w : Worksite F n) :
    (allocate exhausted : Builder F n ε FrameId).Faultless w := by
  intro fault w'
  simp only [allocate]
  split <;> rintro ⟨⟩

variable {root : FrameId} {p : Plan}

/-- A visit of a root entry is faultless: it is refused, fills a child or plants one. -/
theorem writeSlot_faultless {w : Worksite F n} (hw : w.tables.Upward)
    (hbase : w.tables.base.toNat % pageSize = 0) (hroot : root < n) (hp : p.Sound F)
    (hmid : p.tier = .intermediate) {step count : Nat} (hle : step + count ≤ p.steps) :
    (writeSlot root p (p.leafVirt step) step count).Faultless w := by
  have hused := hw.regular.used_le
  have hslot := writeSlot_eq (p := p) hroot (p.leafVirt step) step count w
  rw [p.index_leafVirt] at hslot
  cases hd : F.decode (w.tables.entryAt root (p.slot F step)) 0 with
  | leaf base attrs =>
    rw [hd] at hslot
    exact .of_refused hslot
  | next child =>
    cases hf : w.tables.frameAt child with
    | none =>
      simp only [hd, hf] at hslot
      exact .of_refused hslot
    | some c =>
      exact .of_ok (writeSlot_fill hroot hused hp hmid hle (Tables.childAt_eq_some.mpr ⟨child, hd, hf⟩))
  | invalid =>
    rcases Nat.eq_or_lt_of_le hused with hu | hu
    · simp only [hd, bind_error (allocate_error MapError.storageExhausted hu)] at hslot
      exact .of_refused hslot
    · have hz := hw.eq_zero_of_invalid hbase root _ hd
      exact .of_ok (writeSlot_plant hroot hbase hu hp hmid hle hz)

/-- Writing the leaves of an intermediate plan is faultless. -/
theorem writeSlots_faultless {w : Worksite F n} (hw : w.tables.Upward)
    (hbase : w.tables.base.toNat % pageSize = 0) (hroot : root < w.tables.used) (hp : p.Sound F)
    (hmid : p.tier = .intermediate) {step remaining : Nat} (hle : step + remaining ≤ p.steps) :
    (writeSlots root p step remaining).Faultless w := by
  -- On the leaves that are left; a visit is made of steps, which keep the storage upward.
  induction remaining using Nat.strongRecOn generalizing step w with
  | ind remaining ih =>
  rcases Nat.eq_zero_or_pos remaining with rfl | hpos
  · exact .of_ok (by rw [writeSlots, dif_pos rfl]; rfl)
  have hstep : step < p.steps := by omega
  have hvisit := F.stepsInSlot_pos (p.leafVirt step) remaining hpos
  have hinSlot := F.stepsInSlot_le (p.leafVirt step) remaining
  rw [writeSlots, dif_neg (Nat.ne_of_gt hpos), hp.virtAt_eq_ok hstep]
  dsimp only
  generalize F.stepsInSlot (p.leafVirt step) remaining = inSlot at *
  have hrootn : root < n := Nat.lt_of_lt_of_le hroot hw.regular.used_le
  refine .bind (writeSlot_faultless hw hbase hrootn hp hmid (by omega)) fun _ w₁ hrun => ?_
  have hsteps : w.Steps w₁ :=
    siteAfter_ok hrun ▸ builds_writeSlot p (p.leafVirt step) step inSlot hw.regular hroot
  exact ih _ (by omega) (hsteps.upward hw) (hsteps.base_eq ▸ hbase)
    (Nat.lt_of_lt_of_le hroot (hsteps.regular hw.regular).2) (by omega)

/-- Performing a sound plan is faultless in upward storage at a page, whatever tables the plan was
made for. -/
theorem apply_faultless {w : Worksite F n} (hw : w.tables.Upward)
    (hbase : w.tables.base.toNat % pageSize = 0) (hroot : root < w.tables.used) (hp : p.Sound F) :
    (apply root p).Faultless w := by
  have hall : 0 + p.steps ≤ p.steps := Nat.le_of_eq (Nat.zero_add _)
  unfold apply
  cases htier : p.tier with
  | top =>
    have hrootn : root < n := Nat.lt_of_lt_of_le hroot hw.regular.used_le
    have hrun := writeLeaves_ok hp hrootn hall w
    rw [htier] at hrun
    exact .of_ok hrun
  | intermediate => exact writeSlots_faultless hw hbase hroot hp htier hall

/-- A call is faultless. -/
theorem call_faultless {w : Worksite F n} (hw : w.tables.Upward)
    (hbase : w.tables.base.toNat % pageSize = 0) (hroot : root < w.tables.used) (c : Call) :
    (c.run root).Faultless w := by
  have hrootn : root < n := Nat.lt_of_lt_of_le hroot hw.regular.used_le
  have hplan : ∀ virt phys size memory, (w.tables.plan root virt phys size memory).Faultless :=
    Tables.plan_faultless hrootn hw.regular.used_le
  have happly : ∀ {w₁ : Worksite F n} {p : Plan}, w₁.tables = w.tables →
      w.tables.Plans root p → Faultless (do apply root p; return p) w₁ := by
    intro w₁ p h₁ hmade
    rw [← h₁] at hw hbase hroot
    exact .bind (apply_faultless hw hbase hroot hmade.sound) fun _ w₂ _ => .of_ok rfl
  cases c with
  | map virt phys size =>
    refine .bind_tables (.bind_ofOutcome (hplan _ _ _ _) fun p hp => ?_)
    refine .bind (.of_ok (say_ok _ w)) fun _ w₁ hsay => ?_
    cases hsay
    exact happly rfl (.inl ⟨_, _, _, _, hp⟩)
  | mapIdentity start limit =>
    have hfaultless := Tables.planIdentity_faultless hrootn hw.regular.used_le start limit .normal
    exact .bind_tables (.bind_ofOutcome hfaultless fun p hp => happly rfl (.inr ⟨_, _, _, hp⟩))
  | mapMemory virt phys size memory =>
    exact .bind_tables (.bind_ofOutcome (hplan _ _ _ _) fun p hp =>
      happly rfl (.inl ⟨_, _, _, _, hp⟩))

end Builder

/-! ## Assembly -/

namespace AddressSpace

variable {space : AddressSpace}

/-- Handing out the roots is faultless. -/
theorem allocateRoots_faultless (w : Worksite F n) :
    (allocateRoots : Builder F n BootError AddressSpace).Faultless w := by
  refine .bind (Builder.allocate_faultless _ w) fun selfMap w₁ _ => ?_
  split
  · exact .bind (Builder.allocate_faultless _ w₁) fun _ _ _ => .of_ok rfl
  · exact .of_ok rfl

/-- Planning the console is faultless. -/
theorem planConsole_faultless {w : Worksite F n} (hself : space.selfMap < n)
    (hused : w.tables.used ≤ n) {identity : Plan} (hidentity : identity.Sound F)
    (console : Option PhysAddr) : (planConsole space.selfMap identity console).Faultless w := by
  cases console with
  | none => exact .of_ok rfl
  | some base =>
    refine .bind_tables (.bind_plan (Tables.planIdentity_faultless hself hused _ _ _) fun p hp => ?_)
    have hsound : p.Sound F := Tables.Plans.sound (.inr ⟨_, _, _, hp⟩)
    have hoverlaps := Plan.overlaps_eq_ok hsound hidentity
    refine .bind (.of_ok (Builder.ofFaulting_ok hoverlaps w)) fun meets w₁ _ => ?_
    split
    · exact .of_ok rfl
    · exact .of_ok rfl

/-- Planning the mappings of an address space is faultless. -/
theorem layOut_faultless {w : Worksite F n} {low : FrameId} {roots : List FrameId}
    (h : w.tables.Forest low roots) (hself : space.selfMap ∈ roots)
    (hkernel : space.kernelMap ∈ roots) (footprint : Footprint) (kernel : Region) :
    (layOut space footprint kernel).Faultless w := by
  have hused := h.regular.used_le
  refine .bind_tables (.bind_plan (Tables.planIdentity_faultless (h.root_lt hself) hused _ _ _)
    fun identity hi => ?_)
  have hidentity : identity.Sound F := Tables.Plans.sound (.inr ⟨_, _, _, hi⟩)
  refine .bind (planConsole_faultless (h.root_lt hself) hused hidentity _) fun console w₁ hc => ?_
  have hplans : ∀ p ∈ identity :: console.toList, p.Sound F := by
    refine List.forall_mem_cons.mpr ⟨hidentity, fun p hp => ?_⟩
    rcases planConsole_cases h hself hidentity footprint.console with ⟨stop, herr⟩ |
      ⟨planned, log, hok, hconsole⟩
    · cases herr.symm.trans hc
    · cases hok.symm.trans hc
      obtain ⟨base, -, -, hplan⟩ := hconsole.eq_planIdentity hp
      exact Tables.Plans.sound (.inr ⟨_, _, _, hplan⟩)
  refine .bind_plan (Tables.plan_faultless (h.root_lt hkernel) hused _ _ _ _) fun window hw => ?_
  have hwindow : window.Sound F := Tables.Plans.sound (.inl ⟨_, _, _, _, hw⟩)
  refine .bind_ofOutcome ?_ fun _ _ => .of_ok rfl
  rcases checkLayout_cases space kernel ⟨identity, console, window⟩ hwindow hplans
    w.tables.available with ⟨hok, -⟩ | ⟨e, herr⟩
  · exact .of_ok hok
  · exact .of_refuse herr

/-- All that is done before the first entry is written is faultless. -/
theorem prepare_faultless {w : Worksite F n} (hw : w.tables.Regular) (footprint : Footprint)
    (kernel : Region) : (prepare footprint kernel).Faultless w := by
  have hcheck : Outcome.Faultless (kernel.check.mapError Stop.refused) := by
    unfold Region.check
    split
    · exact .of_ok rfl
    · exact .of_refuse rfl
  refine .bind_ofOutcome hcheck fun _ _ => ?_
  refine .bind (allocateRoots_faultless w) fun space w₁ hroots => ?_
  rcases allocateRoots_cases hw with ⟨count, stop, herr⟩ | ⟨space', count, roots, hok, hrooted⟩
  · cases herr.symm.trans hroots
  · cases hok.symm.trans hroots
    exact .bind (layOut_faultless (w := w.perform (rootEdits count)) hrooted.forest
      hrooted.selfMap_mem hrooted.kernelMap_mem _ _) fun _ _ _ => .of_ok rfl

/-- Performing a plan with a record of it is made of steps. -/
theorem builds_perform {root : FrameId} (p : Plan) (said : Journal.Record) {w : Worksite F n}
    (hw : w.tables.Regular) (hroot : root < w.tables.used) :
    Builder.Builds (perform root p said) w := by
  refine ((Builder.builds_apply p hw hroot).mapCause _).bind fun _ w₁ _ _ => ?_
  exact .of_step (Builder.say_ok _ w₁) (.say w₁ _)

/-- Performing a plan with a record of it is faultless. -/
theorem perform_faultless {root : FrameId} {p : Plan} (hp : p.Sound F) (said : Journal.Record)
    {w : Worksite F n} (hw : w.tables.Upward) (hbase : w.tables.base.toNat % pageSize = 0)
    (hroot : root < w.tables.used) : (perform root p said).Faultless w := by
  refine .bind ((Builder.apply_faultless hw hbase hroot hp).mapCause _) fun _ w₁ _ => ?_
  exact .of_ok (Builder.say_ok _ w₁)

/-- A worksite at which plans can be performed under both roots of an address space. -/
structure Sited (space : AddressSpace) (w : Worksite F n) : Prop where
  /-- the storage is upward -/
  upward : w.tables.Upward
  /-- the frames are pages -/
  base_aligned : w.tables.base.toNat % pageSize = 0
  /-- the root of the self-map is in use -/
  selfMap_lt : space.selfMap < w.tables.used
  /-- the root of the kernel window is in use -/
  kernelMap_lt : space.kernelMap < w.tables.used

/-- Plans can be performed after a plan has been performed. -/
theorem Sited.perform {root : FrameId} {p : Plan} {said : Journal.Record} {w w' : Worksite F n}
    (h : space.Sited w) (hroot : root < w.tables.used)
    (hrun : AddressSpace.perform root p said w = .ok () w') : space.Sited w' := by
  have hsteps : w.Steps w' :=
    Builder.siteAfter_ok hrun ▸ builds_perform p said h.upward.regular hroot
  have hused := (hsteps.regular h.upward.regular).2
  exact ⟨hsteps.upward h.upward, hsteps.base_eq ▸ h.base_aligned,
    Nat.lt_of_lt_of_le h.selfMap_lt hused, Nat.lt_of_lt_of_le h.kernelMap_lt hused⟩

/-- Performing the plans of an address space is faultless. -/
theorem fill_faultless {w : Worksite F n} (h : space.Sited w) {layout : Layout}
    (hplans : ∀ p ∈ layout.selfPlans, p.Sound F) (hwindow : layout.window.Sound F)
    (footprint : Footprint) (kernel : Region) :
    (fill space footprint kernel layout).Faultless w := by
  have hself : ∀ {w : Worksite F n} {p : Plan} (said : Journal.Record), space.Sited w →
      p ∈ layout.selfPlans → (perform space.selfMap p said).Faultless w :=
    fun said h hp => perform_faultless (hplans _ hp) said h.upward h.base_aligned h.selfMap_lt
  have hlast : ∀ {w : Worksite F n} (said : Journal.Record), space.Sited w →
      (perform space.kernelMap layout.window said).Faultless w :=
    fun said h => perform_faultless hwindow said h.upward h.base_aligned h.kernelMap_lt
  unfold fill
  refine .bind (hself _ h List.mem_cons_self) fun _ w₁ hrun => ?_
  have h₁ := h.perform h.selfMap_lt hrun
  cases hconsole : layout.console with
  | none => exact hlast _ h₁
  | some p =>
    have hp : p ∈ layout.selfPlans := by simp [Layout.selfPlans, hconsole]
    refine .bind (hself _ h₁ hp) fun _ w₂ hrun => ?_
    exact hlast _ (h₁.perform h₁.selfMap_lt hrun)

/-- Storage is upward after roots are handed out. -/
theorem upward_after_rootEdits {t : Tables F n} (h : t.Upward) {count : Nat}
    (hcount : t.used + count ≤ n) : (t.after (rootEdits count)).Upward := by
  induction count generalizing t with
  | zero => exact h
  | succ count ih =>
    have hu : t.used < n := by omega
    refine ih (h.takeFrame hu) ?_
    show t.used + 1 + count ≤ n
    omega

/-- Assembling an address space is faultless in upward storage at a page. -/
theorem assemble_faultless {w : Worksite F n} (hw : w.tables.Upward)
    (hbase : w.tables.base.toNat % pageSize = 0) (footprint : Footprint) (kernel : Region) :
    (assemble footprint kernel).Faultless w := by
  refine .bind (prepare_faultless hw.regular footprint kernel) fun ⟨space, layout⟩ w₁ hrun => ?_
  rcases prepare_cases hw.regular footprint kernel with ⟨count, stop, log, herr⟩ |
    ⟨space', layout', count, roots, log, hok, -, hroots, hplanned⟩
  · cases herr.symm.trans hrun
  · cases hok.symm.trans hrun
    have hforest := hroots.forest
    have hused := hforest.regular.used_le
    have hinUse := fun root hr => (hforest.root_mem root hr).2
    have hroom : w.tables.used + count ≤ n := by
      rwa [Tables.used_after, rootEdits, List.count_replicate_self] at hused
    have hupward := upward_after_rootEdits hw hroom
    have hsited : space.Sited { w.perform (rootEdits count) with log } :=
      ⟨hupward, (Tables.base_after _ _).symm ▸ hbase, hinUse _ hroots.selfMap_mem,
        hinUse _ hroots.kernelMap_mem⟩
    refine .bind (fill_faultless hsited ?_ ?_ _ _) fun _ _ _ => .of_ok rfl
    · exact fun p hp => (hplanned.self_sound hforest hroots.selfMap_mem p hp).1
    · exact Tables.Plans.sound (.inl ⟨_, _, _, _, hplanned.window⟩)

end AddressSpace

end Paging

end BootLoader
