import BootLoader.Proofs.Boot.Running

/-!
# All cores enter the kernel together

The promise of a boot with several cores (`Machine.together_run`). Whatever the images, the memory of
the loader, the cores and the driver that starts them are, and in whatever order the cores make their
steps: no core takes the tables into use or enters the kernel before the barrier is open and all cores
have arrived; each then performs the entry sequence of the one plan, as itself; and if the primary
gives up no core ever does.
-/

namespace BootLoader.Boot

open Barrier (Meeting Opening)
open Paging (Format)
open Processor (EntryRegisters Operation RootPair)

variable {F : Format} {frames room : Nat} {σ : Type}

/-! ## What the primary does before the barrier -/

/-- Before it comes to the barrier, the primary has only made wake-up blocks visible. -/
theorem Course.Sound.fenced {s : Setup σ} {plan : Option Plan} {wakeups : WakeupTable room}
    {started : Nat} {done : List Operation} {course : Course}
    (h : course.Sound s plan wakeups started done) (hnone : course.tail? = none) :
    ∀ o ∈ done, o = .fenceData := by
  cases course with
  | prepare =>
    obtain ⟨-, -, rfl⟩ := h
    exact List.forall_mem_nil _
  | startup stage => exact h.2.fenced
  | setCores =>
    obtain ⟨-, -, rfl⟩ := h
    exact fun o ho => List.eq_of_mem_replicate ho
  | openGate =>
    obtain ⟨-, -, rfl⟩ := h
    exact fun o ho => List.eq_of_mem_replicate ho
  | tail t => cases hnone
  | failed e => exact h
  | faulted f => exact h

/-- Before it comes to the barrier, all that the primary does in a step is to make a block visible. -/
theorem Course.Sound.fences {s : Setup σ} {w : World F frames room σ} {started : Nat}
    {done : List Operation} {course : Course}
    (h : course.Sound s w.context.plan w.startup.wakeups started done)
    (hnone : course.tail? = none) {o : Operation}
    (ho : o ∈ operationsOf (course.step s s.platform.cores.primary w).actions) :
    o = .fenceData := by
  -- what it has done after the step it has done at its next place, which is still before the barrier
  have hafter : o ∈ done ++ operationsOf (course.step s s.platform.cores.primary w).actions :=
    List.mem_append_right done ho
  cases course with
  | openGate => cases ho
  | tail t => cases hnone
  | prepare => exact h.step.fenced (closed_prepare s _ w).2 o hafter
  | startup stage =>
    refine h.step.fenced ?_ o hafter
    show (startupStep s stage w).value.tail? = none
    rcases startupStep_cases s stage w with ⟨-, hstep⟩ | ⟨e, hstep⟩ | ⟨driver, hstep⟩ <;>
      rw [hstep] <;> rfl
  | setCores => exact h.step.fenced rfl o hafter
  | failed e => exact h.step.fenced rfl o hafter
  | faulted f => exact h.step.fenced rfl o hafter

namespace Machine

variable {s : Setup σ} {m : Machine F frames room σ} {logical : Nat}

/-! ## A core in its last part -/

/-- The operations that the primary performs before it comes to the barrier; the others perform
none. -/
def fencesBefore (s : Setup σ) (logical : Nat) : List Operation :=
  if logical = 0 then List.replicate s.platform.cores.others.length .fenceData else []

/-- They make blocks visible. -/
theorem eq_of_mem_fencesBefore {o : Operation} (h : o ∈ fencesBefore s logical) :
    o = .fenceData := by
  unfold fencesBefore at h
  split at h
  · exact List.eq_of_mem_replicate h
  · cases h

/-- A core in the part of every core is a core of the map, and follows the plan. -/
theorem Sound.follows (h : m.Sound s) {t : Tail} (ht : m.tail? logical = some t) :
    ∃ p core entered, m.world.context.plan = some p ∧
      s.platform.cores.cores[logical]? = some core ∧ core.logical = logical ∧
      m.operations logical = fencesBefore s logical ++ entered ∧ t.Follows s.smp p core entered := by
  cases logical with
  | zero =>
    have hprimary := h.primary
    have hplace : m.primary.place = .tail t := Course.eq_tail ht
    rw [hplace] at hprimary
    obtain ⟨p, entered, hp, hstarted, hdone, hfollows⟩ := hprimary
    refine ⟨p, s.platform.cores.primary, entered, hp, rfl, rfl, ?_, hfollows⟩
    rw [hdone, hstarted]
    rfl
  | succ index =>
    have ht : (m.secondaries[index]?).bind (·.place.tail?) = some t := ht
    obtain ⟨x, hx, hplace⟩ := Option.bind_eq_some_iff.mp ht
    obtain ⟨p, core, hp, hcore, hsound⟩ := h.secondary index x hx
    have hoperations : m.operations (index + 1) = operationsOf x.actions := by
      show (m.secondaries[index]?.map _).getD [] = _
      rw [hx]
      rfl
    refine ⟨p, core, operationsOf x.actions, hp, hcore, CoreMap.logical_of_secondaries hcore,
      hoperations, ?_⟩
    obtain ⟨c, hrunning⟩ := Secondary.eq_running hplace
    rw [hrunning] at hsound
    exact hsound.2

/-- A core that is not in the part of every core has at most made blocks visible. -/
theorem Sound.fenced (h : m.Sound s) (hnone : m.tail? logical = none) :
    ∀ o ∈ m.operations logical, o = .fenceData := by
  cases logical with
  | zero => exact h.primary.fenced hnone
  | succ index =>
    have hnone : (m.secondaries[index]?).bind (·.place.tail?) = none := hnone
    show ∀ o ∈ (m.secondaries[index]?.map (operationsOf ·.actions)).getD [], o = .fenceData
    cases hx : m.secondaries[index]? with
    | none => exact List.forall_mem_nil _
    | some x =>
      obtain ⟨p, core, -, -, hsound⟩ := h.secondary index x hx
      rw [hx] at hnone
      have hnone : x.place.tail? = none := hnone
      show ∀ o ∈ operationsOf x.actions, o = .fenceData
      cases hsecondary : x.place with
      | waking address =>
        rw [hsecondary] at hsound
        rw [hsound.2.2]
        exact List.forall_mem_nil _
      | running c t =>
        rw [hsecondary] at hnone
        cases hnone
      | lost =>
        rw [hsecondary] at hsound
        exact hsound.elim

/-! ## At the barrier -/

/-- The barrier is open for all cores of the boot, and all have arrived. -/
structure AllArrived (s : Setup σ) (m : Machine F frames room σ) : Prop where
  /-- the barrier is open -/
  go : m.world.context.barrier.go = true
  /-- it is open for all cores -/
  cores_eq : m.world.context.barrier.cores = s.platform.cores.count
  /-- all have arrived -/
  isReady : ∀ id < s.platform.cores.count, m.world.context.barrier.isReady id = true

/-- When a core has passed the barrier, all have arrived. -/
theorem Sound.allArrived (h : m.Sound s) {t : Tail} (ht : m.tail? logical = some t)
    (hpassed : t.hasPassed = true) : m.AllArrived s := by
  obtain ⟨g, hg, hagrees⟩ := h.meets
  obtain ⟨-, core, -, -, hcore, hlogical, -⟩ := h.follows ht
  have hlt : logical < s.platform.cores.count := by
    have hlength := (List.getElem?_eq_some_iff.mp hcore).choose
    unfold CoreMap.cores at hlength
    rwa [List.length_cons, CoreMap.length_secondaries] at hlength
  have hstands := hagrees.standsFor ⟨logical, hlt⟩
  rw [ht] at hstands
  have hphase := Tail.phase_of_matches hstands hpassed
  have hgo := (hg.placed ⟨logical, hlt⟩).go (by rw [hphase]; nofun)
  have hcores := hg.cores_eq (i := ⟨logical, hlt⟩) (by rw [hphase]; nofun)
  have hready := (hg.placed ⟨logical, hlt⟩).left hphase
  rw [hagrees.barrier_eq] at hgo hcores hready
  exact ⟨hgo, hcores, hready⟩

/-- A core that has passed the barrier goes on with each of its steps. -/
theorem Sound.goesOn (h : m.Sound s) {t : Tail} (ht : m.tail? logical = some t)
    (hpassed : t.hasPassed = true) :
    ∃ t', (m.step s (.of logical)).tail? logical = some t' ∧ t'.hasPassed = true ∧
      t'.remaining = t.remaining - 1 := by
  obtain ⟨p, -, -, hp, -⟩ := h.follows ht
  cases logical with
  | zero =>
    refine ⟨(t.step s.smp s.platform.cores.primary m.world.context).value, ?_,
      Tail.remaining_step hpassed hp⟩
    show (m.primary.place.step s s.platform.cores.primary m.world).value.tail? = _
    rw [Course.eq_tail ht]
    rfl
  | succ index =>
    have ht : (m.secondaries[index]?).bind (·.place.tail?) = some t := ht
    obtain ⟨x, hx, hplace⟩ := Option.bind_eq_some_iff.mp ht
    obtain ⟨core, hrunning⟩ := Secondary.eq_running hplace
    refine ⟨(t.step s.smp core m.world.context).value, ?_, Tail.remaining_step hpassed hp⟩
    show (m.stepSecondary s index).tail? (index + 1) = _
    rw [tail?_stepSecondary hx, hrunning]
    rfl

/-- While the primary has not opened the barrier it is closed. -/
theorem Sound.go_eq_false (h : m.Sound s) (hopening : m.primary.place.opening ≠ .opened) :
    m.world.context.barrier.go = false := by
  obtain ⟨g, hg, hagrees⟩ := h.meets
  rw [← hagrees.barrier_eq, ← Bool.not_eq_true]
  exact fun hgo => hopening (hagrees.opening_eq ▸ hg.opened hgo)

/-- A core that is about to take tables into use or to enter the kernel has passed the barrier. -/
theorem Sound.hasPassed_of_upcoming (h : m.Sound s) {a : Agent} {o : Operation}
    (ho : o ∈ operationsOf (m.upcoming s a)) (henters : entersKernel o = true) :
    ∃ logical t, m.tail? logical = some t ∧ t.hasPassed = true := by
  cases a with
  | primary =>
    have ho : o ∈ operationsOf (m.primary.place.step s _ m.world).actions := ho
    cases htail : m.primary.place.tail? with
    | none =>
      rw [h.primary.fences htail ho] at henters
      cases henters
    | some t =>
      rw [Course.eq_tail htail] at ho
      exact ⟨0, t, htail, Tail.hasPassed_of_operation ho⟩
  | secondary index =>
    have ho : o ∈ operationsOf ((m.secondaries[index]?.map _).getD []) := ho
    cases hx : m.secondaries[index]? with
    | none =>
      rw [hx] at ho
      cases ho
    | some x =>
      rw [hx] at ho
      have ho : o ∈ operationsOf (x.place.step s m.world).actions := ho
      cases hplace : x.place with
      | running c t =>
        rw [hplace] at ho
        refine ⟨index + 1, t, ?_, Tail.hasPassed_of_operation ho⟩
        show (m.secondaries[index]?).bind _ = _
        rw [hx]
        show x.place.tail? = _
        rw [hplace]
        rfl
      | waking address =>
        rw [hplace] at ho
        unfold Secondary.step at ho
        dsimp only at ho
        split at ho <;> cases ho
      | lost =>
        rw [hplace] at ho
        cases ho

/-! ## The operations of a core -/

/-- With what a core that has taken tables into use or has entered the kernel did so. -/
theorem Sound.entered (h : m.Sound s) {o : Operation} (ho : o ∈ m.operations logical)
    (henters : entersKernel o = true) :
    ∃ p core, m.world.context.plan = some p ∧ s.platform.cores.cores[logical]? = some core ∧
      core.logical = logical ∧
      (o = .publish p.root ∨ o = .jump p.images.kernel.virtEntry
        (Handoff.registers s.smp { user := p.images.user, tree := p.tree, core })) := by
  cases ht : m.tail? logical with
  | none =>
    rw [h.fenced ht o ho] at henters
    cases henters
  | some t =>
    obtain ⟨p, core, entered, hp, hcore, hlogical, hdone, hfollows⟩ := h.follows ht
    refine ⟨p, core, hp, hcore, hlogical, ?_⟩
    rw [hdone, List.mem_append] at ho
    rcases ho with hbefore | hentered
    · rw [eq_of_mem_fencesBefore hbefore] at henters
      cases henters
    · rw [hfollows.done_eq] at hentered
      have hmem := List.mem_of_mem_take hentered
      unfold entrySequence at hmem
      simp only [List.mem_cons, List.not_mem_nil, or_false] at hmem
      rcases hmem with rfl | rfl | rfl | rfl
      · cases henters
      · exact .inl rfl
      · cases henters
      · exact .inr rfl

/-- What a core takes into use are the tables of the plan. -/
theorem Sound.root_eq (h : m.Sound s) {root : RootPair}
    (hpublish : .publish root ∈ m.operations logical) :
    ∃ p, m.world.context.plan = some p ∧ root = p.root := by
  obtain ⟨p, core, hp, -, -, heq⟩ := h.entered hpublish rfl
  rcases heq with heq | heq
  · exact ⟨p, hp, by cases heq; rfl⟩
  · cases heq

/-- A core enters the kernel as itself. -/
theorem Sound.arguments_eq (h : m.Sound s) {entry : VirtAddr} {arguments : EntryRegisters}
    (hjump : .jump entry arguments ∈ m.operations logical) :
    ∃ (p : Plan) (core : CoreIdentity), s.platform.cores.cores[logical]? = some core ∧
      core.logical = logical ∧
      arguments = Handoff.registers s.smp { user := p.images.user, tree := p.tree, core } := by
  obtain ⟨p, core, -, hcore, hlogical, heq⟩ := h.entered hjump rfl
  rcases heq with heq | heq
  · cases heq
  · exact ⟨p, core, hcore, hlogical, by cases heq; rfl⟩

/-! ## A boot that has failed -/

/-- A primary that has given up makes no further steps. -/
theorem primary_step (a : Agent) (hfailed : m.primary.place.hasFailed = true) :
    (m.step s a).primary.place = m.primary.place := by
  cases a with
  | primary =>
    show (m.primary.place.step s _ m.world).value = m.primary.place
    cases hplace : m.primary.place with
    | failed e => rfl
    | faulted f => rfl
    | _ =>
      rw [hplace] at hfailed
      cases hfailed
  | secondary index =>
    unfold step stepSecondary
    dsimp only
    cases m.secondaries[index]? <;> rfl

/-- A primary that has given up makes no further steps in a run. -/
theorem primary_run (schedule : List Agent) (hfailed : m.primary.place.hasFailed = true) :
    (m.run s schedule).primary.place = m.primary.place := by
  induction schedule generalizing m with
  | nil => rfl
  | cons a schedule ih =>
    have hstep := primary_step (s := s) a hfailed
    exact (ih (hstep ▸ hfailed)).trans hstep

/-- When the primary has given up, the barrier is closed, and no core has taken tables into use or
entered the kernel. -/
theorem Sound.closed (h : m.Sound s) (hfailed : m.primary.place.hasFailed = true) :
    m.world.context.barrier.go = false ∧
      ∀ logical, ∀ o ∈ m.operations logical, entersKernel o = false := by
  have hgo : m.world.context.barrier.go = false := by
    refine h.go_eq_false ?_
    cases hplace : m.primary.place with
    | failed e => nofun
    | faulted f => nofun
    | _ =>
      rw [hplace] at hfailed
      cases hfailed
  refine ⟨hgo, fun logical o ho => ?_⟩
  cases ht : m.tail? logical with
  | none =>
    rw [h.fenced ht o ho]
    rfl
  | some t =>
    -- had it passed the barrier, the barrier would be open
    have hpassed : t.hasPassed = false := by
      rw [← Bool.not_eq_true]
      intro hpassed
      rw [(h.allArrived ht hpassed).go] at hgo
      cases hgo
    obtain ⟨p, core, entered, -, -, -, hdone, hfollows⟩ := h.follows ht
    rw [hdone, hfollows.done_eq, Tail.stage_of_not_hasPassed hpassed, List.take_zero,
      List.append_nil] at ho
    rw [eq_of_mem_fencesBefore ho]
    rfl

/-- A schedule may be run in two parts. -/
theorem run_append (earlier later : List Agent) :
    m.run s (earlier ++ later) = (m.run s earlier).run s later := List.foldl_append

/-! ## The promise -/

/-- What a boot promises at a point of a run, and at any later point of it. -/
structure Together (s : Setup σ) (m later : Machine F frames room σ) : Prop where
  /-- a core that was started goes on as the core of the map that it was started as -/
  started : ∀ (index : Nat) (x : Core Secondary), m.secondaries[index]? = some x →
    ∃ core, s.platform.cores.secondaries[index]? = some core ∧
      ((∃ address, x.place = .waking address) ∨ ∃ t, x.place = .running core t)
  /-- no core is about to take tables into use or to enter the kernel before all have arrived -/
  allArrived : ∀ a, ∀ o ∈ operationsOf (m.upcoming s a), entersKernel o = true → m.AllArrived s
  /-- no core in its last part has to wait for the plan -/
  planned : ∀ logical t, m.tail? logical = some t → m.world.context.plan.isSome = true
  /-- a core that has passed the barrier is not held up any more -/
  goesOn : ∀ logical t, m.tail? logical = some t → t.hasPassed = true →
    ∃ t', (m.step s (.of logical)).tail? logical = some t' ∧ t'.hasPassed = true ∧
      t'.remaining = t.remaining - 1
  /-- before its last part a core has at most made blocks visible -/
  fenced : ∀ logical, m.tail? logical = none → ∀ o ∈ m.operations logical, o = .fenceData
  /-- in its last part it performs the entry sequence of the plan, and no other operation -/
  operations_eq : ∀ logical t, m.tail? logical = some t → ∃ p core,
    m.world.context.plan = some p ∧ s.platform.cores.cores[logical]? = some core ∧
      m.operations logical =
        fencesBefore s logical ++ (entrySequence s.smp p core).take t.stage
  /-- if the kernel returns, the core reports that, with the entry of the kernel -/
  returned : ∀ logical e, m.tail? logical = some (.returned e) → ∃ p,
    m.world.context.plan = some p ∧ e = .unexpectedReturn p.images.kernel.virtEntry
  /-- all cores take the same tables into use -/
  root_eq : ∀ i j root root', .publish root ∈ m.operations i → .publish root' ∈ m.operations j →
    root = root'
  /-- the kernel is told which core enters it -/
  registers : s.smp = true → ∀ logical entry arguments,
    .jump entry arguments ∈ m.operations logical → ∃ core,
      s.platform.cores.cores[logical]? = some core ∧ core.logical = logical ∧
        arguments[6]? = some core.hwId ∧ arguments[7]? = some (UInt64.ofNat logical)
  /-- when the primary has given up, the barrier stays closed and no core ever enters -/
  closed : m.primary.place.hasFailed = true →
    later.primary.place = m.primary.place ∧ later.world.context.barrier.go = false ∧
      ∀ logical, ∀ o ∈ later.operations logical, entersKernel o = false

/-- Every boot of a platform whose cores were assigned keeps its promise, for all images, memories,
drivers and schedules, where the wake-up blocks are in memory. -/
theorem together_run {primaryHw : UInt64} {ids : List UInt64}
    (hassign : CoreMap.assign room primaryHw ids = .ok s.platform.cores)
    (hfits : WakeupBlock.size * room ≤ wordCount) (base : PhysAddr) (wakeups : WakeupTable room)
    (drivers : σ) (earlier later : List Agent) :
    let start : Machine F frames room σ := .initial F frames base wakeups drivers
    Together s (start.run s earlier) (start.run s (earlier ++ later)) := by
  intro start
  have hroom := CoreMap.count_le_of_assign hassign
  -- the invariant holds at any point of the run; the promise is read off it
  have h : (start.run s earlier).Sound s :=
    (Sound.initial s base wakeups drivers).run hroom hfits earlier
  rw [run_append]
  generalize start.run s earlier = m at h ⊢
  exact
    { started := fun index x hx => by
        obtain ⟨p, core, -, hcore, hsound⟩ := h.secondary index x hx
        refine ⟨core, hcore, ?_⟩
        cases hplace : x.place with
        | waking address => exact .inl ⟨address, rfl⟩
        | running c t =>
          rw [hplace] at hsound
          exact .inr ⟨t, by rw [hsound.1]⟩
        | lost =>
          rw [hplace] at hsound
          exact hsound.elim
      allArrived := fun a o ho henters => by
        obtain ⟨logical, t, ht, hpassed⟩ := h.hasPassed_of_upcoming ho henters
        exact h.allArrived ht hpassed
      planned := fun logical t ht => by
        obtain ⟨p, -, -, hp, -⟩ := h.follows ht
        exact Option.isSome_iff_exists.mpr ⟨p, hp⟩
      goesOn := fun logical t ht hpassed => h.goesOn ht hpassed
      fenced := fun logical hnone => h.fenced hnone
      operations_eq := fun logical t ht => by
        obtain ⟨p, core, entered, hp, hcore, -, hdone, hfollows⟩ := h.follows ht
        exact ⟨p, core, hp, hcore, by rw [hdone, hfollows.done_eq]⟩
      returned := fun logical e ht => by
        obtain ⟨p, core, entered, hp, -, -, -, hfollows⟩ := h.follows ht
        exact ⟨p, hp, hfollows.holds⟩
      root_eq := fun i j root root' hroot hroot' => by
        obtain ⟨p, hp, rfl⟩ := h.root_eq hroot
        obtain ⟨p', hp', rfl⟩ := h.root_eq hroot'
        rw [hp] at hp'
        rw [Option.some.inj hp']
      registers := fun hsmp logical entry arguments hjump => by
        obtain ⟨p, core, hcore, hlogical, rfl⟩ := h.arguments_eq hjump
        rw [hsmp]
        exact ⟨core, hcore, hlogical, rfl, by rw [← hlogical]; rfl⟩
      closed := fun hfailed => by
        have hstays := primary_run (s := s) later hfailed
        have hlater : (m.run s later).Sound s := h.run hroom hfits later
        exact ⟨hstays, hlater.closed (hstays ▸ hfailed)⟩ }

/-- A platform of two cores with a driver that starts any core, and a kernel so large that one table
maps all of it. -/
def pairSetup : Setup Unit where
  source :=
    { result := .ok
        { kernel := .place 0x40000000 0x80000000 0xffffffc000000000 0xffffffc000001000
          user := .identity 0x80600000 0x80601000
          numApps := 1 } }
  footprint := ⟨⟨0x80200000⟩, ⟨0x80234000⟩, none⟩
  pc := ⟨0x80200000⟩
  platform :=
    { tree := .none
      cores := { primaryHw := 4, others := [7] }
      driver := some
        { name := "any", probe := fun _ => .accept, start := fun _ _ _ => .accept } }
  entry := ⟨0x80200100⟩
  bootStacks := ⟨0x80210000, 0x4000, 4⟩
  contextAddress := 0x80230000

/-- A schedule for that platform: the secondary comes to the barrier while it is still closed. -/
def pairEarlier : List Agent :=
  List.replicate 4 .primary ++ List.replicate 3 (.secondary 0) ++ List.replicate 4 .primary

/-- How that schedule may go on until both cores have come back from the kernel. -/
def pairLater : List Agent :=
  List.replicate 12 (.secondary 0) ++ List.replicate 24 .primary ++ List.replicate 12 (.secondary 0)

/-- Two cores boot, and if the kernel returns on both each says so. -/
theorem together_run_pair :
    let start : Machine .sv39 1 4 Unit := .initial .sv39 1 ⟨0x80300000⟩ { base := 0x80220000 } ()
    Together pairSetup (start.run pairSetup pairEarlier)
        (start.run pairSetup (pairEarlier ++ pairLater)) ∧
      ∀ logical < 2, ((start.run pairSetup (pairEarlier ++ pairLater)).tail? logical).bind
        Tail.result? = some (.unexpectedReturn ⟨0xffffffc000001000⟩) :=
  have hassign : CoreMap.assign 4 4 [7] = .ok pairSetup.platform.cores := rfl
  ⟨together_run hassign (by decide) _ _ _ _ _, by decide +kernel⟩

end Machine

end BootLoader.Boot
