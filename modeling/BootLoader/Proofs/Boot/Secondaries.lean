import BootLoader.Boot.Startup
import BootLoader.Proofs.Boot.Advance
import BootLoader.Proofs.Core.Cores

/-!
# The trace of starting the secondaries

Starting the secondaries is a sequence of calls of the bring-up driver, which may answer each as it
likes (`Startup.Answered`). Each call comes with the same three actions: the block of the core is
filled in, it is made visible, and the driver is called with its address (`Startup.Call.actions`). At
every point of the start-up, what has been done beside what was said is these actions for the calls so
far, and the beginning of the next ones (`Startup.Traced`); one step keeps this
(`Startup.Traced.next`), and so does a run. In the end either all secondaries have been called in
their order, or the last call is the first that failed (`Startup.starts_of_fits`).
-/

namespace BootLoader.Boot

open Bringup (Driver DriverError)

/-- What is done by some actions beside what is said. -/
def effectsOf (actions : List Action) : List Action := actions.filter (·.record?.isNone)

/-- The effects of two lists of actions. -/
@[simp]
theorem effectsOf_append (first second : List Action) :
    effectsOf (first ++ second) = effectsOf first ++ effectsOf second := List.filter_append ..

/-- Saying something has no effect. -/
@[simp]
theorem effectsOf_map_say (records : List Journal.Record) :
    effectsOf (records.map .say) = [] := by
  simp [effectsOf, Action.record?]

/-- Saying something is not waiting. -/
@[simp]
theorem Action.isHint_say (record : Journal.Record) : (say record).isHint = false := rfl

namespace Startup

variable {n : Nat} {σ : Type} {s : Startup σ}

/-! ## Calls of the driver -/

/-- A call of the bring-up driver. -/
structure Call where
  /-- the core that is to be started -/
  core : CoreIdentity
  /-- the answer -/
  result : Except DriverError Unit

/-- The top of the stack of a core. -/
def stackTop (s : Startup σ) (core : CoreIdentity) : UInt64 :=
  s.bootStacks.base + UInt64.ofNat ((core.logical + 1) * s.bootStacks.size)

/-- The block that a core is woken with. -/
def wakeup (s : Startup σ) (core : CoreIdentity) : WakeupBlock := s.block core (s.stackTop core)

/-- What the driver answers when it is asked to start a core with the address of its block. -/
def answer (s : Startup σ) (t : WakeupTable n) (core : CoreIdentity) (drivers : σ) :
    Bringup.Answer σ :=
  s.driver.start core.hwId s.entry (t.address core.logical) drivers

/-- What is done for a call: the block is filled in and made visible, and the driver is called with the
address of the block. -/
def Call.actions (s : Startup σ) (t : WakeupTable n) (c : Call) : List Action :=
  [.fill c.core.logical (s.wakeup c.core), .perform .fenceData,
    .start c.core.hwId s.entry (t.address c.core.logical) c.result]

/-- Calls that the driver answers one after the other, where each but the last succeeds: `drivers` is
its state before them, and the last argument its state after them. -/
inductive Answered (s : Startup σ) (t : WakeupTable n) (drivers : σ) : List Call → σ → Prop where
  /-- nothing has been asked -/
  | none : Answered s t drivers [] drivers
  /-- after calls that succeeded there is another one -/
  | call {calls : List Call} {now : σ} (h : Answered s t drivers calls now)
    (hok : ∀ c ∈ calls, c.result = .ok ()) (core : CoreIdentity) :
    Answered s t drivers (calls ++ [⟨core, (s.answer t core now).result⟩]) (s.answer t core now).state

/-! ## One step -/

/-- What holds when the driver has answered `calls` and the block of the next core is filled in. -/
structure Readied (s : Startup σ) (t : WakeupTable n) (calls : List Call) (core : CoreIdentity)
    (stackTop block : UInt64) (rest : List CoreIdentity) : Prop where
  /-- the core comes after those that were called -/
  cores_eq : calls.map Call.core ++ core :: rest = s.cores.secondaries
  /-- these have been started -/
  started : ∀ c ∈ calls, c.result = .ok ()
  /-- the core gets its stack -/
  stackTop_eq : stackTop = s.stackTop core
  /-- the address is that of its block -/
  block_eq : block = t.address core.logical
  /-- the block is that of the core -/
  get_eq : t.get core.logical = some (s.wakeup core)

/-- What holds of a stage when the driver has answered `calls`, and `pending` has been done for the
next call. -/
def Stage.Follows (s : Startup σ) (t : WakeupTable n) (calls : List Call) (pending : List Action) :
    Stage → Prop
  | .remaining rest =>
    calls.map Call.core ++ rest = s.cores.secondaries ∧ (∀ c ∈ calls, c.result = .ok ()) ∧
      pending = []
  | .filled core stackTop block rest =>
    Readied s t calls core stackTop block rest ∧ pending = [.fill core.logical (s.wakeup core)]
  | .visible core stackTop block rest =>
    Readied s t calls core stackTop block rest ∧
      pending = [.fill core.logical (s.wakeup core), .perform .fenceData]
  | .finished =>
    calls.map Call.core = s.cores.secondaries ∧ (∀ c ∈ calls, c.result = .ok ()) ∧ pending = []
  | .failed e =>
    calls.map Call.core <+: s.cores.secondaries ∧ pending = [] ∧
      ∃ before c cause, calls = before ++ [c] ∧ (∀ b ∈ before, b.result = .ok ()) ∧
        c.result = .error cause ∧ e = .coreStartFailed c.core.hwId cause.code

/-- What holds of a start-up at any point, when the driver has answered `calls`: the blocks of the
cores that were called are filled in, and the actions of the calls have been done, in order. -/
structure Traced (s : Startup σ) (m : Memory n σ) (r : Progress Stage (Memory n σ))
    (calls : List Call) : Prop where
  /-- the blocks are where they were -/
  base_eq : r.memory.wakeups.base = m.wakeups.base
  /-- the answers are those of the driver -/
  answered : Answered s m.wakeups m.drivers calls r.memory.drivers
  /-- the block of each core that was called is that of the core -/
  filled : ∀ c ∈ calls, r.memory.wakeups.get c.core.logical = some (s.wakeup c.core)
  /-- what was done is what was done for the calls, and for the next one -/
  trace : ∃ pending, effectsOf r.actions = calls.flatMap (Call.actions s m.wakeups) ++ pending ∧
    r.place.Follows s r.memory.wakeups calls pending

/-- Before the first step nothing has been called. -/
theorem traced_initial (s : Startup σ) (m : Memory n σ) :
    Traced s m { place := s.initial, memory := m } [] where
  base_eq := rfl
  answered := .none
  filled := List.forall_mem_nil _
  trace := ⟨[], rfl, List.nil_append _, List.forall_mem_nil _, rfl⟩

/-- The block of a secondary for which there is a stack and a block is filled in. -/
theorem fillBlock_eq {core : CoreIdentity} (hstack : core.logical < s.bootStacks.count)
    (hblock : core.logical < n) (rest : List CoreIdentity) (m : Memory n σ) :
    ∃ wakeups, m.wakeups.fill core.logical (s.wakeup core) =
        some (m.wakeups.address core.logical, wakeups) ∧
      s.fillBlock core rest m =
        { value := .filled core (s.stackTop core) (m.wakeups.address core.logical) rest
          memory := { m with wakeups }
          actions := [.fill core.logical (s.wakeup core)] } := by
  have htop : s.bootStacks.top core.logical = some (s.stackTop core) := if_pos hstack
  have hfill : m.wakeups.fill core.logical (s.wakeup core) = some (m.wakeups.address core.logical, _) :=
    dif_pos hblock
  refine ⟨_, hfill, ?_⟩
  unfold fillBlock
  rw [htop]
  dsimp only
  rw [show s.block core (s.stackTop core) = s.wakeup core from rfl, hfill]

/-- The effect of having the driver start a core is the call. -/
theorem effectsOf_startCore (core : CoreIdentity) (stackTop block : UInt64)
    (rest : List CoreIdentity) (m : Memory n σ) :
    effectsOf (s.startCore core stackTop block rest m).actions =
      [.start core.hwId s.entry block (s.driver.start core.hwId s.entry block m.drivers).result] := by
  unfold startCore
  rw [effectsOf_append, effectsOf_map_say, List.append_nil]
  rfl

variable {m : Memory n σ} {r : Progress Stage (Memory n σ)} {calls : List Call}

/-- A core that was called before another one has a smaller number. -/
theorem logical_lt_of_called {core : CoreIdentity} {rest : List CoreIdentity}
    (hcores : calls.map Call.core ++ core :: rest = s.cores.secondaries) {c : Call} (hc : c ∈ calls) :
    c.core.logical < core.logical := by
  obtain ⟨before, after, rfl⟩ := List.append_of_mem hc
  have hlogical := CoreMap.logical_of_append hcores
  have hsplit : before.map Call.core ++ c.core :: (after.map Call.core ++ core :: rest) =
      s.cores.secondaries := by simpa using hcores
  have hbefore := CoreMap.logical_of_append hsplit
  simp only [List.map_append, List.map_cons, List.length_append, List.length_cons] at hlogical
  omega

/-- Filling in the block of the next core keeps the trace. -/
theorem Traced.next_of_remaining {core : CoreIdentity} {rest : List CoreIdentity}
    (hcount : s.cores.count ≤ n) (hstacks : s.cores.count ≤ s.bootStacks.count)
    (hplace : r.place = .remaining (core :: rest)) (h : Traced s m r calls) :
    Traced s m (s.program.next r) calls := by
  obtain ⟨place, memory, actions, spins⟩ := r
  obtain ⟨hbase, hanswered, hfilled, pending, htrace, hfollows⟩ := h
  dsimp only at *
  subst hplace
  obtain ⟨hcores, hok, rfl⟩ := hfollows
  have hlt : core.logical < s.cores.count := CoreMap.logical_lt_count
    (by rw [← hcores, List.getElem?_append_right (Nat.le_refl _), Nat.sub_self]; rfl)
  obtain ⟨wakeups, hfill, hstep⟩ := fillBlock_eq (Nat.lt_of_lt_of_le hlt hstacks)
    (Nat.lt_of_lt_of_le hlt hcount) rest memory
  obtain ⟨-, -, hkept, hself, hothers⟩ := WakeupTable.fill_eq_some hfill
  unfold Program.next
  rw [show s.program.step (.remaining (core :: rest)) memory = _ from hstep]
  refine ⟨hkept.trans hbase, hanswered, fun c hc => ?_, [.fill core.logical (s.wakeup core)], ?_,
    ⟨hcores, hok, rfl, (WakeupTable.address_congr hkept _).symm, hself⟩, rfl⟩
  · -- the block of a core that was called before is another one
    have hlogical := logical_lt_of_called hcores hc
    exact (hothers _ (Nat.ne_of_lt hlogical)).trans (hfilled c hc)
  · rw [effectsOf_append, htrace, List.append_nil]
    rfl

/-- Having the driver start a core keeps the trace, with one more call. -/
theorem Traced.next_of_visible {core : CoreIdentity} {stackTop block : UInt64}
    {rest : List CoreIdentity} (hplace : r.place = .visible core stackTop block rest)
    (h : Traced s m r calls) : ∃ c, Traced s m (s.program.next r) (calls ++ [c]) := by
  obtain ⟨place, memory, actions, spins⟩ := r
  obtain ⟨hbase, hanswered, hfilled, pending, htrace, hfollows⟩ := h
  dsimp only at *
  subst hplace
  obtain ⟨⟨hcores, hok, rfl, hblock, hget⟩, rfl⟩ := hfollows
  -- the table has not been moved, so the driver gets the address that the block had from the start
  obtain rfl : block = m.wakeups.address core.logical :=
    hblock.trans (WakeupTable.address_congr hbase _)
  refine ⟨⟨core, (s.answer m.wakeups core memory.drivers).result⟩, hbase, hanswered.call hok core, ?_,
    [], ?_, ?_⟩
  · refine List.forall_mem_append.mpr ⟨hfilled, fun c hc => ?_⟩
    rw [List.mem_singleton.mp hc]
    exact hget
  · show effectsOf (actions ++ (s.startCore core _ _ rest memory).actions) = _
    rw [effectsOf_append, effectsOf_startCore, htrace, List.flatMap_append, List.append_assoc,
      List.append_nil]
    rfl
  · have hcalled : ∀ result, (calls ++ [Call.mk core result]).map Call.core ++ rest =
        s.cores.secondaries := fun result => by
      rw [List.map_append, List.append_assoc]
      exact hcores
    unfold Program.next program step startCore
    dsimp only
    rw [show s.driver.start core.hwId s.entry (m.wakeups.address core.logical) memory.drivers =
      s.answer m.wakeups core memory.drivers from rfl]
    cases (s.answer m.wakeups core memory.drivers).result with
    | ok =>
      exact ⟨hcalled _, List.forall_mem_append.mpr ⟨hok, List.forall_mem_singleton.mpr rfl⟩, rfl⟩
    | error cause => exact ⟨⟨rest, hcalled _⟩, rfl, calls, _, cause, rfl, hok, rfl, rfl⟩

/-- A step of the start-up keeps its trace, for the same calls or for one more. -/
theorem Traced.next (hcount : s.cores.count ≤ n) (hstacks : s.cores.count ≤ s.bootStacks.count)
    (hdone : Stage.isDone r.place = false) (h : Traced s m r calls) :
    ∃ calls', Traced s m (s.program.next r) calls' := by
  cases hplace : r.place with
  | remaining rest =>
    cases rest with
    | nil =>
      obtain ⟨hbase, hanswered, hfilled, pending, htrace, hfollows⟩ := h
      rw [hplace] at hfollows
      obtain ⟨hcores, hok, rfl⟩ := hfollows
      unfold Program.next
      rw [hplace]
      refine ⟨calls, hbase, hanswered, hfilled, [], ?_, ?_, hok, rfl⟩
      · show effectsOf (r.actions ++ (startedRecords s.driver.name s.cores).map .say) = _
        rw [effectsOf_append, effectsOf_map_say, htrace, List.append_nil]
      · rwa [List.append_nil] at hcores
    | cons core rest => exact ⟨calls, h.next_of_remaining hcount hstacks hplace⟩
  | filled core stackTop block rest =>
    obtain ⟨hbase, hanswered, hfilled, pending, htrace, hfollows⟩ := h
    rw [hplace] at hfollows
    obtain ⟨hready, rfl⟩ := hfollows
    unfold Program.next
    rw [hplace]
    refine ⟨calls, hbase, hanswered, hfilled, _, ?_, hready, rfl⟩
    show effectsOf (r.actions ++ [.perform .fenceData]) = _
    rw [effectsOf_append, htrace, List.append_assoc]
    rfl
  | visible core stackTop block rest =>
    obtain ⟨c, hc⟩ := h.next_of_visible hplace
    exact ⟨_, hc⟩
  | finished => exact absurd (congrArg Stage.isDone hplace) (hdone ▸ Bool.false_ne_true)
  | failed e => exact absurd (congrArg Stage.isDone hplace) (hdone ▸ Bool.false_ne_true)

/-! ## Runs -/

/-- How far the start-up has come after a number of steps. -/
def after (s : Startup σ) (m : Memory n σ) (steps : Nat) : Progress Stage (Memory n σ) :=
  s.program.advance steps [] { place := s.initial, memory := m }

/-- The run of a start-up is what it has come to after all its steps. -/
theorem run_eq_after (s : Startup σ) (m : Memory n σ) : s.run m = s.after m s.stride := by
  unfold run Program.run after
  rw [List.length_nil, Nat.zero_add, Nat.one_mul]

/-- A start-up has a trace at any point. -/
theorem traced_after (hcount : s.cores.count ≤ n) (hstacks : s.cores.count ≤ s.bootStacks.count)
    (m : Memory n σ) (steps : Nat) : ∃ calls, Traced s m (s.after m steps) calls :=
  Program.advance_keeps (P := fun r => ∃ calls, Traced s m r calls)
    (fun _ hdone h => h.elim fun _ h => h.next hcount hstacks hdone) steps ⟨[], traced_initial s m⟩

/-- At most the number of steps that are left at a stage. -/
def Stage.left : Stage → Nat
  | .remaining rest => 3 * rest.length + 1
  | .filled _ _ _ rest => 3 * rest.length + 3
  | .visible _ _ _ rest => 3 * rest.length + 2
  | .finished => 0
  | .failed _ => 0

/-- A start-up does not wait, and comes closer to its end with each step. -/
theorem left_step (s : Startup σ) {stage : Stage} (m : Memory n σ) (h : stage.isDone = false) :
    (s.step stage m).value.left < stage.left ∧
      (s.step stage m).actions.any Action.isHint = false := by
  cases stage with
  | remaining rest =>
    cases rest with
    | nil => exact ⟨Nat.one_pos, by simp [Startup.step]⟩
    | cons core rest =>
      show (s.fillBlock core rest m).value.left < 3 * (rest.length + 1) + 1 ∧
        (s.fillBlock core rest m).actions.any Action.isHint = false
      unfold fillBlock
      dsimp only
      split
      · exact ⟨Nat.succ_pos _, rfl⟩
      · split
        · exact ⟨Nat.succ_pos _, rfl⟩
        · exact ⟨Nat.lt_succ_self _, rfl⟩
  | filled core stackTop block rest => exact ⟨Nat.lt_succ_self _, rfl⟩
  | visible core stackTop block rest =>
    show (s.startCore core stackTop block rest m).value.left < 3 * rest.length + 2 ∧
      (s.startCore core stackTop block rest m).actions.any Action.isHint = false
    unfold startCore
    dsimp only
    constructor
    · split
      · exact Nat.lt_succ_self _
      · exact Nat.succ_pos _
    · simp [Action.isHint, Action.operation?]
  | finished => cases h
  | failed e => cases h

/-- A start-up comes to its end. -/
theorem isDone_run (s : Startup σ) (m : Memory n σ) : (s.run m).place.isDone = true := by
  rw [run_eq_after]
  refine Program.isDone_advance (p := s.program) (fun _ memory h => left_step s memory h) ?_
  show 3 * s.cores.secondaries.length + 1 ≤ 3 * (s.cores.others.length + 1)
  rw [CoreMap.length_secondaries]
  omega

/-- What a start-up comes to when the driver has answered `calls`. -/
inductive Ended (s : Startup σ) : List Call → Stage → Prop where
  /-- the driver has started all secondaries -/
  | finished {calls : List Call} (hcores : calls.map Call.core = s.cores.secondaries)
    (hok : ∀ c ∈ calls, c.result = .ok ()) : Ended s calls .finished
  /-- the driver refused to start one, after it had started those before -/
  | refused {before : List Call} {c : Call} {cause : DriverError}
    (hcores : (before ++ [c]).map Call.core <+: s.cores.secondaries)
    (hok : ∀ b ∈ before, b.result = .ok ()) (hrefused : c.result = .error cause) :
    Ended s (before ++ [c]) (.failed (.coreStartFailed c.core.hwId cause.code))

/-- What starting the secondaries promises, where `m` is the memory before. -/
structure Starts (s : Startup σ) (m : Memory n σ) : Prop where
  /-- the secondaries are numbered in their order -/
  numbered : ∀ index core, s.cores.secondaries[index]? = some core → core.logical = index + 1
  /-- each has a stack -/
  stacked : ∀ core ∈ s.cores.secondaries, s.bootStacks.top core.logical = some (s.stackTop core)
  /-- the driver is called for the secondaries in this order, until it refuses one, each time with the
  address of the block that was filled in and made visible just before -/
  called : ∃ calls, Answered s m.wakeups m.drivers calls (s.run m).memory.drivers ∧
    effectsOf (s.run m).actions = calls.flatMap (Call.actions s m.wakeups) ∧
    Ended s calls (s.run m).place
  /-- at any point, the block of each core that was to be started reads what the core is woken with -/
  reads : ∀ steps hwId entry address result,
    Action.start hwId entry address result ∈ (s.after m steps).actions →
    ∃ core ∈ s.cores.secondaries, hwId = core.hwId ∧ entry = s.entry ∧
      address = m.wakeups.address core.logical ∧
      (s.after m steps).memory.wakeups.blockAt address = some
        ⟨s.stackTop core, core.hwId, UInt64.ofNat core.logical, s.context⟩
  /-- the blocks of different cores do not overlap -/
  blocks_apart : ∀ i j, i < j → j < n →
    (m.wakeups.address i).toNat + WakeupBlock.size ≤ (m.wakeups.address j).toNat
  /-- there is a stack for each core, in the memory that is set aside for stacks -/
  stacks_inside : ∀ i < n, ∃ top, s.bootStacks.top i = some top ∧
    s.bootStacks.base.toNat + s.bootStacks.size ≤ top.toNat ∧
    top.toNat ≤ s.bootStacks.base.toNat + s.bootStacks.size * n
  /-- the stacks of different cores do not overlap -/
  stacks_apart : ∀ i j top other, i < j → s.bootStacks.top i = some top →
    s.bootStacks.top j = some other → top.toNat + s.bootStacks.size ≤ other.toNat

/-- The cores that were called are the first of the secondaries. -/
theorem Stage.Follows.called {t : WakeupTable n} {pending : List Action} {stage : Stage}
    (h : stage.Follows s t calls pending) : calls.map Call.core <+: s.cores.secondaries := by
  cases stage with
  | remaining rest => exact ⟨rest, h.1⟩
  | filled core stackTop block rest => exact ⟨core :: rest, h.1.cores_eq⟩
  | visible core stackTop block rest => exact ⟨core :: rest, h.1.cores_eq⟩
  | finished => exact h.1 ▸ List.prefix_rfl
  | failed e => exact h.1

/-- What is done for the next call is not yet the call. -/
theorem Stage.Follows.start_not_mem {t : WakeupTable n} {pending : List Action} {stage : Stage}
    (h : stage.Follows s t calls pending) (hwId : UInt64) (entry : PhysAddr) (address : UInt64)
    (result : Except DriverError Unit) : Action.start hwId entry address result ∉ pending := by
  cases stage with
  | remaining rest => simp [h.2.2]
  | filled core stackTop block rest => simp [h.2]
  | visible core stackTop block rest => simp [h.2]
  | finished => simp [h.2.2]
  | failed e => simp [h.2.1]

/-- When a start-up is done, its trace is that of its calls alone. -/
theorem Stage.Follows.ended {t : WakeupTable n} {pending : List Action} {stage : Stage}
    (hdone : stage.isDone = true) (h : stage.Follows s t calls pending) :
    pending = [] ∧ Ended s calls stage := by
  cases stage with
  | remaining rest => cases hdone
  | filled core stackTop block rest => cases hdone
  | visible core stackTop block rest => cases hdone
  | finished => exact ⟨h.2.2, .finished h.1 h.2.1⟩
  | failed e =>
    obtain ⟨hcores, hpending, before, c, cause, rfl, hok, hrefused, rfl⟩ := h
    exact ⟨hpending, .refused hcores hok hrefused⟩

/-- A core that the driver was asked to start is one of those that were called. -/
theorem Traced.of_start_mem (h : Traced s m r calls) {hwId : UInt64} {entry : PhysAddr}
    {address : UInt64} {result : Except DriverError Unit}
    (hmem : Action.start hwId entry address result ∈ r.actions) :
    ∃ c ∈ calls, hwId = c.core.hwId ∧ entry = s.entry ∧
      address = m.wakeups.address c.core.logical := by
  obtain ⟨pending, htrace, hfollows⟩ := h.trace
  have heffect : Action.start hwId entry address result ∈ effectsOf r.actions :=
    List.mem_filter.mpr ⟨hmem, rfl⟩
  rw [htrace, List.mem_append, List.mem_flatMap] at heffect
  rcases heffect with ⟨c, hc, hstart⟩ | hpending
  · simp only [Call.actions, List.mem_cons, reduceCtorEq, Action.start.injEq, List.not_mem_nil,
      or_false, false_or] at hstart
    obtain ⟨hhw, hentry, haddress, -⟩ := hstart
    exact ⟨c, hc, hhw, hentry, haddress⟩
  · exact absurd hpending (hfollows.start_not_mem hwId entry address result)

/-- Starting the secondaries of a core map for which there are stacks and blocks. -/
theorem starts_of_fits {primaryHw : UInt64} {ids : List UInt64}
    (hcores : CoreMap.assign n primaryHw ids = .ok s.cores) (hstacks : s.bootStacks.count = n)
    (hstacked : s.bootStacks.base.toNat + s.bootStacks.size * n < wordCount)
    (hblocks : m.wakeups.base.toNat + WakeupBlock.size * n ≤ wordCount) : s.Starts m := by
  have hcount : s.cores.count ≤ n := CoreMap.count_le_of_assign hcores
  have hlogical : ∀ core ∈ s.cores.secondaries, core.logical < n := fun core hcore => by
    obtain ⟨index, hindex⟩ := List.mem_iff_getElem?.mp hcore
    exact Nat.lt_of_lt_of_le (CoreMap.logical_lt_count hindex) hcount
  have htraced := traced_after hcount (hstacks.symm ▸ hcount) m
  rw [← hstacks] at hstacked
  refine ⟨fun _ _ => CoreMap.logical_of_secondaries, fun core hcore => ?_, ?_, ?_,
    fun _ _ => WakeupTable.address_apart hblocks, fun i hi => ?_,
    fun _ _ _ _ => Stacks.top_apart hstacked⟩
  · exact if_pos (hstacks.symm ▸ hlogical core hcore)
  · obtain ⟨calls, hcalls⟩ := htraced s.stride
    rw [← run_eq_after] at hcalls
    obtain ⟨pending, htrace, hfollows⟩ := hcalls.trace
    obtain ⟨rfl, hended⟩ := hfollows.ended (isDone_run s m)
    exact ⟨calls, hcalls.answered, htrace.trans (List.append_nil _), hended⟩
  · intro steps hwId entry address result hmem
    obtain ⟨calls, hcalls⟩ := htraced steps
    obtain ⟨c, hc, hhw, hentry, haddress⟩ := hcalls.of_start_mem hmem
    obtain ⟨pending, -, hfollows⟩ := hcalls.trace
    have hcore := hfollows.called.subset (List.mem_map_of_mem hc)
    refine ⟨c.core, hcore, hhw, hentry, haddress, ?_⟩
    rw [haddress, ← WakeupTable.address_congr hcalls.base_eq,
      WakeupTable.blockAt_address (Nat.le_trans (Nat.le_add_left _ _) hblocks) (hlogical _ hcore),
      hcalls.filled c hc]
    rfl
  · obtain ⟨top, htop⟩ : ∃ top, s.bootStacks.top i = some top := ⟨_, if_pos (hstacks.symm ▸ hi)⟩
    exact ⟨top, htop, hstacks ▸ Stacks.top_inside hstacked htop⟩

end Startup

end BootLoader.Boot
