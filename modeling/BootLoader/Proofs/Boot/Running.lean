import BootLoader.Proofs.Boot.Entry
import BootLoader.Proofs.Boot.Launch

/-!
# A machine at every point of a boot

What holds of a machine at every point of a run, whatever the schedule (`Machine.Sound`): its barrier
is that of a meeting of all its cores, where each core is where its visitor is; the primary and each
secondary have done what their places say and no more; and the plan is there when it is needed. The
step of each kind of core preserves this, so every run does (`Machine.Sound.run`).
-/

namespace BootLoader.Boot

open Barrier (Meeting Opening Visitor)
open Paging (Footprint Format)
open Processor (Operation)

variable {F : Format} {frames room n : Nat} {σ : Type}

/-! ## Preparing -/

/-- Preparing a boot leaves the barrier alone, performs no operation, starts no core, and publishes the
plan if it succeeds. -/
theorem Context.prepare_spec {c : Context F frames room} (hplan : c.plan = none)
    (source : ImageSource) (footprint : Footprint) (pc : PhysAddr) (tree : TreeLocation) :
    let next := c.prepare source footprint pc tree
    next.memory.barrier = c.barrier ∧ operationsOf next.actions = [] ∧
      startedWith next.actions = [] ∧ ∀ p, next.value = .ok p → next.memory.plan = some p := by
  have hasked : ∀ log : List Journal.Record,
      operationsOf (Action.load :: log.map .say) = [] ∧
        startedWith (Action.load :: log.map .say) = [] :=
    fun log => ⟨operationsOf_map_say log, startedWith_map_say log⟩
  unfold prepare
  rw [hplan]
  dsimp only
  cases checkedImages source with
  | error e => exact ⟨rfl, (hasked source.log).1, (hasked source.log).2, nofun⟩
  | ok images =>
    dsimp only
    cases build images.kernel footprint pc { tables := c.tables } with
    | error stop w =>
      refine ⟨rfl, ?_, ?_, nofun⟩
      · rw [operationsOf_append, (hasked source.log).1, operationsOf_map_say, List.nil_append]
      · rw [startedWith_append, (hasked source.log).2, startedWith_map_say, List.nil_append]
    | ok space w =>
      refine ⟨rfl, ?_, ?_, ?_⟩
      · rw [operationsOf_append, (hasked source.log).1, operationsOf_map_say, List.nil_append]
      · rw [startedWith_append, (hasked source.log).2, startedWith_map_say, List.nil_append]
      · intro p hp
        cases hp
        rfl

/-! ## The primary -/

namespace Course

/-- What a step of starting secondaries is: the end of it, for better or worse, or a step of the
start-up with some driver. -/
theorem startupStep_cases (s : Setup σ) (stage : Startup.Stage) (w : World F frames room σ) :
    (stage = .finished ∧ startupStep s stage w = { value := .setCores, memory := w }) ∨
      (∃ e, startupStep s stage w = { value := .failed e, memory := w }) ∨
      ∃ driver, startupStep s stage w =
        (((startupOf s driver).step stage w.startup).mapMemory fun startup =>
          { w with startup }).map .startup := by
  unfold startupStep
  cases stage with
  | finished => exact .inl ⟨rfl, rfl⟩
  | failed e => exact .inr (.inl ⟨e, rfl⟩)
  | _ =>
    cases s.platform.driver with
    | none => exact .inr (.inl ⟨.noSmpDriver, rfl⟩)
    | some driver => exact .inr (.inr ⟨driver, rfl⟩)

/-- How far the primary is with opening the barrier. -/
def opening : Course → Opening
  | .openGate => .counted
  | .tail _ => .opened
  | .prepare | .startup _ | .setCores | .failed _ | .faulted _ => .closed

/-- Whether the primary has given up. -/
def hasFailed : Course → Bool
  | .failed _ | .faulted _ => true
  | .prepare | .startup _ | .setCores | .openGate | .tail _ => false

/-- What holds when the primary, which has performed the operations `done`, has started `started`
secondaries. -/
def Sound (s : Setup σ) (plan : Option Plan) (wakeups : WakeupTable room) (started : Nat)
    (done : List Operation) : Course → Prop
  | .prepare => plan = none ∧ started = 0 ∧ done = []
  | .startup stage => plan.isSome = true ∧ stage.Sound s wakeups started done
  | .setCores | .openGate =>
    plan.isSome = true ∧ started = s.platform.cores.others.length ∧
      done = List.replicate started .fenceData
  | .tail t =>
    ∃ p entered, plan = some p ∧ started = s.platform.cores.others.length ∧
      done = List.replicate started .fenceData ++ entered ∧
      t.Follows s.smp p s.platform.cores.primary entered
  | .failed _ | .faulted _ => ∀ o ∈ done, o = .fenceData

variable {s : Setup σ} {course : Course} {w : World F frames room σ} {started : Nat}
  {done : List Operation}

/-- After preparing, the primary goes on to start secondaries, if there are any. -/
theorem sound_afterPrepare {wakeups : WakeupTable room} {p : Plan} :
    (afterPrepare s).Sound s (some p) wakeups 0 [] := by
  unfold afterPrepare
  split
  next hempty =>
    rw [List.isEmpty_iff] at hempty
    exact ⟨rfl, by rw [hempty]; rfl, rfl⟩
  · split
    · exact List.forall_mem_nil _
    · exact ⟨rfl, Nat.zero_le _, rfl, rfl⟩

/-- After preparing, the barrier is still to be opened. -/
theorem closed_prepare (s : Setup σ) (core : CoreIdentity) (w : World F frames room σ) :
    (Course.prepare.step s core w).value.opening = .closed ∧
      (Course.prepare.step s core w).value.tail? = none := by
  unfold step afterPrepare
  dsimp only
  cases (w.context.prepare s.source s.footprint s.pc s.platform.tree).value with
  | ok p =>
    dsimp only
    split
    · exact ⟨rfl, rfl⟩
    · split <;> exact ⟨rfl, rfl⟩
  | error stop => cases stop <;> exact ⟨rfl, rfl⟩

/-- The primary has done what its place says after each step. -/
theorem Sound.step
    (h : course.Sound s w.context.plan w.startup.wakeups started done) :
    let next := course.step s s.platform.cores.primary w
    next.value.Sound s next.memory.context.plan next.memory.startup.wakeups
      (started + (startedWith next.actions).length) (done ++ operationsOf next.actions) := by
  cases course with
  | prepare =>
    obtain ⟨hplan, rfl, rfl⟩ := h
    obtain ⟨-, hoperations, hstarted, hpublished⟩ :=
      w.context.prepare_spec hplan s.source s.footprint s.pc s.platform.tree
    unfold Course.step
    dsimp only
    rw [hoperations, hstarted]
    cases hvalue : (w.context.prepare s.source s.footprint s.pc s.platform.tree).value with
    | ok p =>
      rw [hpublished p hvalue]
      exact sound_afterPrepare
    | error stop => cases stop <;> exact List.forall_mem_nil _
  | startup stage =>
    obtain ⟨hplan, hstage⟩ := h
    unfold Course.step
    dsimp only
    rcases startupStep_cases s stage w with ⟨rfl, hstep⟩ | ⟨e, hstep⟩ | ⟨driver, hstep⟩
    · rw [hstep]
      exact ⟨hplan, hstage.1, (List.append_nil done).trans hstage.2⟩
    · rw [hstep]
      exact Startup.fenced_append_nil hstage.fenced
    · rw [hstep]
      exact ⟨hplan, hstage.step.2⟩
  | setCores =>
    obtain ⟨hplan, hstarted, hdone⟩ := h
    exact ⟨hplan, hstarted, (List.append_nil done).trans hdone⟩
  | openGate =>
    obtain ⟨hplan, hstarted, hdone⟩ := h
    obtain ⟨p, hp⟩ := Option.isSome_iff_exists.mp hplan
    exact ⟨p, [], hp, hstarted, by rw [hdone]; rfl, Tail.follows_initial⟩
  | tail t =>
    obtain ⟨p, entered, hp, hstarted, hdone, hfollows⟩ := h
    have hnone : startedWith (t.step s.smp s.platform.cores.primary w.context).actions = [] :=
      Tail.startedWith_step
    unfold Course.step
    dsimp only [Step.map, Step.mapMemory]
    rw [hnone, List.length_nil, Nat.add_zero, hdone, List.append_assoc]
    exact ⟨p, _, Tail.plan_step.trans hp, hstarted, rfl, hfollows.step hp⟩
  | failed e => exact Startup.fenced_append_nil h
  | faulted f => exact Startup.fenced_append_nil h

/-- Each step of the primary leaves the blocks of started cores alone, keeps the plan that there is, and
starts at most the next core, which it does only once there is a plan. -/
theorem Sound.launch (h : course.Sound s w.context.plan w.startup.wakeups started done) :
    let next := course.step s s.platform.cores.primary w
    Startup.Launch s w.startup.wakeups next.memory.startup.wakeups started
        (startedWith next.actions) ∧
      (∀ p, w.context.plan = some p → next.memory.context.plan = some p) ∧
      (startedWith next.actions ≠ [] → next.memory.context.plan.isSome = true) := by
  have hidle := Startup.Launch.none s w.startup.wakeups started
  cases course with
  | prepare =>
    obtain ⟨hplan, -, -⟩ := h
    obtain ⟨-, -, hstarted, -⟩ :=
      w.context.prepare_spec hplan s.source s.footprint s.pc s.platform.tree
    unfold Course.step
    dsimp only
    rw [hstarted, hplan]
    exact ⟨hidle, nofun, fun hne => absurd rfl hne⟩
  | startup stage =>
    obtain ⟨hplan, hstage⟩ := h
    unfold Course.step
    dsimp only
    rcases startupStep_cases s stage w with ⟨rfl, hstep⟩ | ⟨e, hstep⟩ | ⟨driver, hstep⟩
    · rw [hstep]
      exact ⟨hidle, fun _ => id, fun _ => hplan⟩
    · rw [hstep]
      exact ⟨hidle, fun _ => id, fun _ => hplan⟩
    · rw [hstep]
      exact ⟨hstage.step.1, fun _ => id, fun _ => hplan⟩
  | tail t =>
    have hnone : startedWith (t.step s.smp s.platform.cores.primary w.context).actions = [] :=
      Tail.startedWith_step
    unfold Course.step
    dsimp only [Step.map, Step.mapMemory]
    rw [hnone, Tail.plan_step]
    exact ⟨hidle, fun _ => id, fun hne => absurd rfl hne⟩
  | _ => exact ⟨hidle, fun _ => id, fun hne => absurd rfl hne⟩

end Course

/-! ## Visitors -/

/-- Whether a visitor of a meeting is where the core with a logical id is. -/
def StandsFor (v : Visitor) (logical : Nat) : Option Tail → Prop
  | none => v = { id := logical }
  | some t => t.Matches v

/-- The step of the primary is the step of the opener, or that of its visitor, or one that the meeting
does not see. -/
theorem Course.meets_step {s : Setup σ} {course : Course} {w : World F frames room σ}
    {g : Meeting room s.platform.cores.count} {i : Fin s.platform.cores.count} (hi : (i : Nat) = 0)
    (hroom : s.platform.cores.count ≤ room) (hg : g.Orderly)
    (hplan : course = .prepare → w.context.plan = none)
    (hbarrier : g.barrier = w.context.barrier) (hopening : g.opening = course.opening)
    (hstands : StandsFor (g.visitors i) i course.tail?) :
    let next := course.step s s.platform.cores.primary w
    ∃ g' : Meeting room s.platform.cores.count, g'.Orderly ∧
      g'.barrier = next.memory.context.barrier ∧ g'.opening = next.value.opening ∧
      StandsFor (g'.visitors i) i next.value.tail? ∧ ∀ j, j ≠ i → g'.visitors j = g.visitors j := by
  have hopen := hg.openNext s.platform.cores.count_pos hroom
  cases course with
  | prepare =>
    obtain ⟨hsame, -⟩ :=
      w.context.prepare_spec (hplan rfl) s.source s.footprint s.pc s.platform.tree
    obtain ⟨hclosed, htail⟩ := closed_prepare s s.platform.cores.primary w
    refine ⟨g, hg, hbarrier.trans hsame.symm, hopening.trans hclosed.symm, ?_, fun _ _ => rfl⟩
    rw [htail]
    exact hstands
  | startup stage =>
    unfold Course.step
    dsimp only
    rcases startupStep_cases s stage w with ⟨rfl, hstep⟩ | ⟨e, hstep⟩ | ⟨driver, hstep⟩ <;>
      rw [hstep] <;> exact ⟨g, hg, hbarrier, hopening, hstands, fun _ _ => rfl⟩
  | setCores =>
    have hnext : g.openNext =
        { g with opening := .counted, barrier := g.barrier.setCores s.platform.cores.count } := by
      unfold Meeting.openNext
      rw [hopening]
      rfl
    rw [hnext] at hopen
    exact ⟨_, hopen, congrArg (fun b => b.setCores s.platform.cores.count) hbarrier, rfl, hstands,
      fun _ _ => rfl⟩
  | openGate =>
    have hnext : g.openNext = { g with opening := .opened, barrier := g.barrier.openGate } := by
      unfold Meeting.openNext
      rw [hopening]
      rfl
    rw [hnext] at hopen
    -- from here on the primary is a visitor itself, and has not moved yet
    refine ⟨_, hopen, congrArg Barrier.openGate hbarrier, rfl, ?_, fun _ _ => rfl⟩
    rw [hi] at hstands
    exact hstands
  | tail t =>
    obtain ⟨g', hg', hbarrier', hopening', hmatches, hothers⟩ :=
      Tail.matches_step s.smp s.platform.cores.primary hroom hg hbarrier hstands
    exact ⟨g', hg', hbarrier', hopening'.trans hopening, hmatches, hothers⟩
  | failed e => exact ⟨g, hg, hbarrier, hopening, hstands, fun _ _ => rfl⟩
  | faulted f => exact ⟨g, hg, hbarrier, hopening, hstands, fun _ _ => rfl⟩

/-! ## Secondaries -/

namespace Secondary

variable {s : Setup σ} {p : Plan} {core : CoreIdentity} {x : Secondary} {done : List Operation}

/-- What holds of the secondary `core`, which has performed the operations `done`. -/
def Sound (s : Setup σ) (p : Plan) (wakeups : WakeupTable room) (core : CoreIdentity)
    (done : List Operation) : Secondary → Prop
  | .waking address =>
    address = wakeups.address core.logical ∧ Filled s wakeups core ∧ done = []
  | .running c t => c = core ∧ t.Follows s.smp p core done
  | .lost => False

/-- A secondary does not see what happens to the blocks of others. -/
theorem Sound.congr {w u : WakeupTable room} (h : x.Sound s p w core done)
    (hbase : u.base = w.base) (hget : u.get core.logical = w.get core.logical) :
    x.Sound s p u core done := by
  cases x with
  | waking address =>
    obtain ⟨haddress, hfilled, hdone⟩ := h
    exact ⟨haddress.trans (WakeupTable.address_congr hbase _).symm, hfilled.congr hget, hdone⟩
  | running c t => exact h
  | lost => exact h

/-- A secondary has done what its place says after each step, in which it changes nothing but the
barrier. -/
theorem Sound.step {w : World F frames room σ} (hfits : WakeupBlock.size * room ≤ wordCount)
    (hlogical : core.logical < room) (hplan : w.context.plan = some p)
    (h : x.Sound s p w.startup.wakeups core done) :
    let next := x.step s w
    next.value.Sound s p w.startup.wakeups core (done ++ operationsOf next.actions) ∧
      next.memory.context.plan = w.context.plan ∧ next.memory.startup = w.startup := by
  cases x with
  | waking address =>
    obtain ⟨rfl, hfilled, rfl⟩ := h
    rw [step_waking hfits hlogical hfilled]
    exact ⟨⟨rfl, Tail.follows_initial⟩, rfl, rfl⟩
  | running c t =>
    obtain ⟨rfl, hfollows⟩ := h
    exact ⟨⟨rfl, hfollows.step hplan⟩, Tail.plan_step, rfl⟩
  | lost => exact h.elim

/-- The step of a secondary is that of its visitor, or one that the meeting does not see. -/
theorem Sound.meets_step {w : World F frames room σ} {g : Meeting room n} {i : Fin n}
    (hfits : WakeupBlock.size * room ≤ wordCount) (hroom : n ≤ room) (hi : (i : Nat) = core.logical)
    (h : x.Sound s p w.startup.wakeups core done) (hg : g.Orderly)
    (hbarrier : g.barrier = w.context.barrier) (hstands : StandsFor (g.visitors i) i x.tail?) :
    let next := x.step s w
    ∃ g' : Meeting room n, g'.Orderly ∧ g'.barrier = next.memory.context.barrier ∧
      g'.opening = g.opening ∧ StandsFor (g'.visitors i) i next.value.tail? ∧
      ∀ j, j ≠ i → g'.visitors j = g.visitors j := by
  cases x with
  | waking address =>
    obtain ⟨rfl, hfilled, -⟩ := h
    have hlogical : core.logical < room := hi ▸ Nat.lt_of_lt_of_le i.isLt hroom
    rw [step_waking hfits hlogical hfilled]
    refine ⟨g, hg, hbarrier, rfl, ?_, fun _ _ => rfl⟩
    rw [hi] at hstands
    exact hstands
  | running c t => exact Tail.matches_step s.smp c hroom hg hbarrier hstands
  | lost => exact h.elim

end Secondary

/-! ## Machines -/

namespace Machine

variable {s : Setup σ} {m : Machine F frames room σ}

/-- A meeting is that of the cores of a machine. -/
structure Agrees (s : Setup σ) (m : Machine F frames room σ)
    (g : Meeting room s.platform.cores.count) : Prop where
  /-- they meet at the barrier of the machine -/
  barrier_eq : g.barrier = m.world.context.barrier
  /-- the primary opens it -/
  opening_eq : g.opening = m.primary.place.opening
  /-- each core is where its visitor is -/
  standsFor : ∀ i, StandsFor (g.visitors i) i (m.tail? i)

/-- What holds of a machine at every point of a boot. -/
structure Sound (s : Setup σ) (m : Machine F frames room σ) : Prop where
  /-- the cores meet at the barrier -/
  meets : ∃ g : Meeting room s.platform.cores.count, g.Orderly ∧ m.Agrees s g
  /-- the primary has done what its place says -/
  primary : m.primary.place.Sound s m.world.context.plan m.world.startup.wakeups
    m.secondaries.length (m.operations 0)
  /-- there is a plan as soon as there are secondaries, and they have done what their places say -/
  secondary : ∀ (index : Nat) (x : Core Secondary), m.secondaries[index]? = some x → ∃ p core,
    m.world.context.plan = some p ∧ s.platform.cores.secondaries[index]? = some core ∧
      x.place.Sound s p m.world.startup.wakeups core (operationsOf x.actions)

/-- A core that was just started is not yet in the part of every core. -/
theorem tail?_stepPrimary_succ (index : Nat) :
    (m.stepPrimary s).tail? (index + 1) = m.tail? (index + 1) := by
  show ((m.secondaries ++ _)[index]?).bind _ = (m.secondaries[index]?).bind _
  rw [List.getElem?_append]
  split
  · rfl
  next hge =>
    rw [List.getElem?_eq_none (Nat.le_of_not_lt hge), List.getElem?_map]
    cases (startedWith (m.nextOfPrimary s).actions)[index - m.secondaries.length]? <;> rfl

/-- What holds of a machine survives a step of the primary. -/
theorem Sound.stepPrimary (hroom : s.platform.cores.count ≤ room) (h : m.Sound s) :
    (m.stepPrimary s).Sound s := by
  obtain ⟨⟨g, hg, hagrees⟩, hprimary, hsecondary⟩ := h
  obtain ⟨⟨hbase, hget, hnext⟩, hkept, hplanned⟩ := hprimary.launch
  refine ⟨?_, ?_, ?_⟩
  · -- the meeting makes the step of the primary; no other core moves, and new ones are only waking
    let first : Fin s.platform.cores.count := ⟨0, s.platform.cores.count_pos⟩
    have hplan : m.primary.place = .prepare → m.world.context.plan = none := by
      intro hplace
      rw [hplace] at hprimary
      exact hprimary.1
    obtain ⟨g', hg', hbarrier, hopening, hstands, hothers⟩ :=
      Course.meets_step (i := first) rfl hroom hg hplan hagrees.barrier_eq hagrees.opening_eq
        (hagrees.standsFor first)
    refine ⟨g', hg', hbarrier, hopening, fun i => ?_⟩
    by_cases hi : i = first
    · rw [hi]
      exact hstands
    · obtain ⟨index, hindex⟩ : ∃ index, (i : Nat) = index + 1 :=
        Nat.exists_eq_succ_of_ne_zero fun hzero => hi (Fin.ext hzero)
      rw [hothers i hi]
      have := hagrees.standsFor i
      rw [hindex] at this ⊢
      rw [tail?_stepPrimary_succ]
      exact this
  · have hstep := hprimary.step
    dsimp only at hstep
    show Course.Sound s _ _ (m.secondaries ++ List.map _ _).length
      (operationsOf (m.primary.actions ++ (m.nextOfPrimary s).actions)) _
    rw [List.length_append, List.length_map, operationsOf_append]
    exact hstep
  · -- those started before keep their blocks, and one that is new has just been given its own
    intro index x hx
    have hx : (m.secondaries ++ List.map _ (startedWith (m.nextOfPrimary s).actions))[index]? =
      some x := hx
    rw [List.getElem?_append] at hx
    split at hx
    next hlt =>
      obtain ⟨p, core, hp, hcore, hsound⟩ := hsecondary index x hx
      refine ⟨p, core, hkept p hp, hcore, hsound.congr hbase (hget core.logical ?_)⟩
      rw [CoreMap.logical_of_secondaries hcore]
      exact hlt
    next hge =>
      rw [List.getElem?_map, Option.map_eq_some_iff] at hx
      obtain ⟨word, hword, rfl⟩ := hx
      obtain ⟨hzero, core, hcore, haddress, hfilled⟩ := hnext _ word hword
      have hindex : index = m.secondaries.length := by omega
      have hne : startedWith (m.nextOfPrimary s).actions ≠ [] := by
        intro hnil
        rw [hnil] at hword
        cases hword
      obtain ⟨p, hp⟩ := Option.isSome_iff_exists.mp (hplanned hne)
      exact ⟨p, core, hp, hindex ▸ hcore, haddress, hfilled, rfl⟩

/-- The machine after the step of a secondary that was started. -/
theorem stepSecondary_of_getElem? {index : Nat} {x : Core Secondary}
    (hx : m.secondaries[index]? = some x) :
    m.stepSecondary s index =
      { m with
        world := (x.place.step s m.world).memory
        secondaries := m.secondaries.set index (x.after (x.place.step s m.world)) } := by
  unfold stepSecondary
  rw [hx]

/-- Where a secondary is after its step. -/
theorem tail?_stepSecondary {index : Nat} {x : Core Secondary}
    (hx : m.secondaries[index]? = some x) :
    (m.stepSecondary s index).tail? (index + 1) = (x.place.step s m.world).value.tail? := by
  have hindex : index < m.secondaries.length := (List.getElem?_eq_some_iff.mp hx).choose
  rw [stepSecondary_of_getElem? hx]
  show ((m.secondaries.set index _)[index]?).bind _ = _
  rw [List.getElem?_set_self hindex]
  rfl

/-- The step of a secondary leaves all other cores where they are. -/
theorem tail?_stepSecondary_of_ne {index logical : Nat} (h : logical ≠ index + 1) :
    (m.stepSecondary s index).tail? logical = m.tail? logical := by
  unfold stepSecondary
  cases m.secondaries[index]? with
  | none => rfl
  | some x =>
    cases logical with
    | zero => rfl
    | succ other =>
      show ((m.secondaries.set index _)[other]?).bind _ = _
      rw [List.getElem?_set_ne fun heq => h (congrArg (· + 1) heq.symm)]
      rfl

/-- What holds of a machine survives a step of a secondary. -/
theorem Sound.stepSecondary (hroom : s.platform.cores.count ≤ room)
    (hfits : WakeupBlock.size * room ≤ wordCount) (h : m.Sound s) (index : Nat) :
    (m.stepSecondary s index).Sound s := by
  cases hx : m.secondaries[index]? with
  | none =>
    unfold Machine.stepSecondary
    rw [hx]
    exact h
  | some x =>
    obtain ⟨⟨g, hg, hagrees⟩, hprimary, hsecondary⟩ := h
    obtain ⟨p, core, hp, hcore, hsound⟩ := hsecondary index x hx
    have hlogical : core.logical = index + 1 := CoreMap.logical_of_secondaries hcore
    have hlt : core.logical < s.platform.cores.count := CoreMap.logical_lt_count hcore
    obtain ⟨hnext, hplan, hstartup⟩ := hsound.step hfits (Nat.lt_of_lt_of_le hlt hroom) hp
    refine ⟨?_, ?_, ?_⟩
    · let id : Fin s.platform.cores.count := ⟨core.logical, hlt⟩
      have hhere : m.tail? core.logical = x.place.tail? := by
        rw [hlogical]
        show (m.secondaries[index]?).bind _ = _
        rw [hx]
        rfl
      have hstands : StandsFor (g.visitors id) core.logical x.place.tail? :=
        hhere ▸ hagrees.standsFor id
      obtain ⟨g', hg', hbarrier, hopening, hstands', hothers⟩ :=
        hsound.meets_step hfits hroom (i := id) rfl hg hagrees.barrier_eq hstands
      refine ⟨g', hg', ?_, ?_, fun j => ?_⟩
      · rw [stepSecondary_of_getElem? hx]
        exact hbarrier
      · rw [stepSecondary_of_getElem? hx]
        exact hopening.trans hagrees.opening_eq
      · by_cases hj : j = id
        · subst hj
          show StandsFor (g'.visitors id) core.logical
            ((m.stepSecondary s index).tail? core.logical)
          rw [hlogical, tail?_stepSecondary hx, ← hlogical]
          exact hstands'
        · have hne : (j : Nat) ≠ index + 1 := fun heq => hj (Fin.ext (heq.trans hlogical.symm))
          rw [hothers j hj, tail?_stepSecondary_of_ne hne]
          exact hagrees.standsFor j
    · rw [stepSecondary_of_getElem? hx]
      show Course.Sound s (x.place.step s m.world).memory.context.plan
        (x.place.step s m.world).memory.startup.wakeups (m.secondaries.set index _).length
        (operationsOf m.primary.actions) m.primary.place
      rw [hplan, hstartup, List.length_set]
      exact hprimary
    · rw [stepSecondary_of_getElem? hx]
      intro j y hy
      show ∃ p core, (x.place.step s m.world).memory.context.plan = some p ∧ _ ∧
        y.place.Sound s p (x.place.step s m.world).memory.startup.wakeups core _
      rw [hplan, hstartup]
      by_cases hj : index = j
      · subst hj
        have hindex : index < m.secondaries.length := (List.getElem?_eq_some_iff.mp hx).choose
        obtain rfl : x.after (x.place.step s m.world) = y := by
          have hy : (m.secondaries.set index _)[index]? = some y := hy
          rw [List.getElem?_set_self hindex] at hy
          exact Option.some.inj hy
        refine ⟨p, core, hp, hcore, ?_⟩
        show Secondary.Sound s p _ core (operationsOf (x.actions ++ _)) _
        rw [operationsOf_append]
        exact hnext
      · have hy : (m.secondaries.set index _)[j]? = some y := hy
        rw [List.getElem?_set_ne hj] at hy
        exact hsecondary j y hy

/-- What holds of a machine survives a step of any core. -/
theorem Sound.step (hroom : s.platform.cores.count ≤ room)
    (hfits : WakeupBlock.size * room ≤ wordCount) (h : m.Sound s) (a : Agent) :
    (m.step s a).Sound s := by
  cases a with
  | primary => exact h.stepPrimary hroom
  | secondary index => exact h.stepSecondary hroom hfits index

/-- What holds of a machine holds when the boot begins. -/
theorem Sound.initial (s : Setup σ) (base : PhysAddr) (wakeups : WakeupTable room) (drivers : σ) :
    (Machine.initial F frames base wakeups drivers).Sound s where
  meets := by
    refine ⟨{}, Meeting.Orderly.initial, rfl, rfl, fun i => ?_⟩
    have hnone : (Machine.initial F frames base wakeups drivers).tail? i = none := by
      cases (i : Nat) <;> rfl
    rw [hnone]
    rfl
  primary := ⟨rfl, rfl, rfl⟩
  secondary _ _ h := by cases h

/-- What holds of a machine survives a run. -/
theorem Sound.run (hroom : s.platform.cores.count ≤ room)
    (hfits : WakeupBlock.size * room ≤ wordCount) (h : m.Sound s) (schedule : List Agent) :
    (m.run s schedule).Sound s := by
  induction schedule generalizing m with
  | nil => exact h
  | cons a schedule ih => exact ih (h.step hroom hfits a)

end Machine

end BootLoader.Boot
