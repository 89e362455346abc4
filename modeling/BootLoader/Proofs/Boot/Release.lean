import BootLoader.Proofs.Boot.Secondaries
import BootLoader.Proofs.Boot.Together

/-!
# The barrier of a boot that is prepared

Preparing a boot comes to an end, whatever the images and the driver are (`Course.isPrepared_run`).
On the way the barrier is touched by the last two steps alone, which come after everything that can
fail (`Course.Gated`). So the barrier is open exactly when the primary goes on to it, and then it is
open for all cores of the boot; together with the trace of the start-up, this is the promise of
`Course.releases_of_fits`.
-/

namespace BootLoader.Boot

open Paging (Footprint Format)

variable {F : Format} {frames room : Nat} {σ : Type}

/-- Preparing a boot does not wait. -/
theorem Context.any_isHint_prepare (c : Context F frames room) (source : ImageSource)
    (footprint : Footprint) (pc : PhysAddr) (tree : TreeLocation) :
    (c.prepare source footprint pc tree).actions.any Action.isHint = false := by
  have hload : Action.load.isHint = false := rfl
  unfold prepare
  cases c.plan with
  | some plan => rfl
  | none =>
    dsimp only
    cases checkedImages source with
    | error e => simp [hload]
    | ok images =>
      dsimp only
      cases build images.kernel footprint pc { tables := c.tables } with
      | error stop w => simp [hload]
      | ok space w => simp [hload]

namespace Course

variable {s : Setup σ} {course : Course} {w : World F frames room σ}

/-! ## Coming to an end -/

/-- At most the number of steps that are left of preparing a boot. -/
def left (s : Setup σ) : Course → Nat
  | .prepare => 3 * s.platform.cores.count + 4
  | .startup stage => stage.left + 3
  | .setCores => 2
  | .openGate => 1
  | .tail _ | .failed _ | .faulted _ => 0

/-- After preparing there is less left to do. -/
theorem left_afterPrepare (s : Setup σ) : (afterPrepare s).left s < Course.prepare.left s := by
  have hlength := s.platform.cores.length_secondaries
  unfold afterPrepare
  split
  · show 2 < 3 * s.platform.cores.count + 4
    omega
  · split
    · exact Nat.succ_pos _
    · show 3 * s.platform.cores.secondaries.length + 1 + 3 < 3 * (_ + 1) + 4
      omega

/-- A step of starting secondaries leaves less to do, without waiting. -/
theorem left_startupStep (s : Setup σ) (stage : Startup.Stage) (w : World F frames room σ) :
    (startupStep s stage w).value.left s < (Course.startup stage).left s ∧
      (startupStep s stage w).actions.any Action.isHint = false := by
  cases hdone : stage.isDone with
  | true =>
    cases stage with
    | finished => exact ⟨Nat.lt_succ_self 2, rfl⟩
    | failed e => exact ⟨Nat.succ_pos _, rfl⟩
    | _ => cases hdone
  | false =>
    rcases startupStep_cases s stage w with ⟨rfl, -⟩ | ⟨e, hstep⟩ | ⟨driver, hstep⟩
    · cases hdone
    · rw [hstep]
      exact ⟨Nat.succ_pos _, rfl⟩
    · rw [hstep]
      obtain ⟨hless, hhint⟩ := Startup.left_step (startupOf s driver) w.startup hdone
      exact ⟨Nat.add_lt_add_right hless 3, hhint⟩

/-- A step of preparing leaves less to do, without waiting. -/
theorem left_step (s : Setup σ) {course : Course} (w : World F frames room σ)
    (h : course.isPrepared = false) :
    (course.step s s.platform.cores.primary w).value.left s < course.left s ∧
      (course.step s s.platform.cores.primary w).actions.any Action.isHint = false := by
  cases course with
  | prepare =>
    refine ⟨?_, w.context.any_isHint_prepare s.source s.footprint s.pc s.platform.tree⟩
    unfold step
    dsimp only
    cases (w.context.prepare s.source s.footprint s.pc s.platform.tree).value with
    | ok plan => exact left_afterPrepare s
    | error stop => cases stop <;> exact Nat.succ_pos _
  | startup stage => exact left_startupStep s stage w
  | setCores => exact ⟨Nat.lt_succ_self 1, rfl⟩
  | openGate => exact ⟨Nat.zero_lt_one, rfl⟩
  | tail t => cases h
  | failed e => cases h
  | faulted f => cases h

/-- Preparing a boot comes to an end. -/
theorem isPrepared_run (s : Setup σ) (w : World F frames room σ) :
    (preparePrimary s w).place.isPrepared = true := by
  refine Program.isDone_advance (p := preparation s) (fun _ w h => left_step s w h) ?_
  show 3 * s.platform.cores.count + 4 ≤ 1 * (3 * s.platform.cores.count + Tail.stride room + 8)
  omega

/-! ## The barrier -/

/-- What holds of the boot context while the primary prepares a boot with a fresh one: before the
primary opens the barrier it only tells it how many cores meet, and that is the last but one step. -/
def Gated (s : Setup σ) (c : Context F frames room) : Course → Prop
  | .prepare => c.plan = none ∧ c.barrier = {}
  | .openGate => c.barrier = Barrier.setCores {} s.platform.cores.count
  | .tail t =>
    t = .initial s.platform.cores.primary ∧ c.barrier = Barrier.release {} s.platform.cores.count
  | .startup _ | .setCores | .failed _ | .faulted _ => c.barrier = {}

/-- Where the primary goes on after preparing, the barrier is still as it was. -/
theorem gated_afterPrepare {c : Context F frames room} (h : c.barrier = {}) :
    (afterPrepare s).Gated s c := by
  unfold afterPrepare
  split
  · exact h
  · split
    · exact h
    · exact h

/-- A step of preparing keeps what holds of the boot context. -/
theorem Gated.step (hprepared : course.isPrepared = false) (h : course.Gated s w.context) :
    let next := course.step s s.platform.cores.primary w
    next.value.Gated s next.memory.context := by
  cases course with
  | prepare =>
    obtain ⟨hplan, hbarrier⟩ := h
    have hkept := (Context.prepare_spec hplan s.source s.footprint s.pc s.platform.tree).1
    have hclosed := hkept.trans hbarrier
    unfold Course.step
    dsimp only
    cases (w.context.prepare s.source s.footprint s.pc s.platform.tree).value with
    | ok plan => exact gated_afterPrepare hclosed
    | error stop => cases stop <;> exact hclosed
  | startup stage =>
    show (startupStep s stage w).value.Gated s (startupStep s stage w).memory.context
    rcases startupStep_cases s stage w with ⟨-, hstep⟩ | ⟨e, hstep⟩ | ⟨driver, hstep⟩ <;>
    · rw [hstep]
      exact h
  | setCores => exact congrArg (Barrier.setCores · _) h
  | openGate => exact ⟨rfl, congrArg Barrier.openGate h⟩
  | tail t => cases hprepared
  | failed e => cases hprepared
  | faulted f => cases hprepared

/-- What holds of the boot context holds when everything is prepared. -/
theorem gated_run (s : Setup σ) (hplan : w.context.plan = none) (hbarrier : w.context.barrier = {}) :
    (preparePrimary s w).place.Gated s (preparePrimary s w).memory.context :=
  Program.advance_keeps (p := preparation s)
    (P := fun r => r.place.Gated s r.memory.context) (fun _ hdone h => h.step hdone) _
    ⟨hplan, hbarrier⟩

/-- When everything is prepared, either the primary has opened the barrier and goes on to it, or the
boot cannot go on and the barrier is as it was. -/
theorem Gated.of_isPrepared {c : Context F frames room} (hprepared : course.isPrepared = true)
    (h : course.Gated s c) :
    (course = .tail (.initial s.platform.cores.primary) ∧
        c.barrier = Barrier.release {} s.platform.cores.count) ∨
      (course ≠ .tail (.initial s.platform.cores.primary) ∧ c.barrier = {}) := by
  cases course with
  | prepare => cases hprepared
  | startup stage => cases hprepared
  | setCores => cases hprepared
  | openGate => cases hprepared
  | tail t => exact .inl ⟨congrArg tail h.1, h.2⟩
  | failed e => exact .inr ⟨nofun, h⟩
  | faulted f => exact .inr ⟨nofun, h⟩

/-! ## The promise -/

/-- What starting the secondaries and preparing a boot promise. -/
structure Releases (s : Setup σ) (w : World F frames room σ) : Prop where
  /-- whatever the driver is, the secondaries are started one after the other -/
  starts : ∀ driver, (startupOf s driver).Starts w.startup
  /-- preparing comes to an end -/
  ends : (preparePrimary s w).place.isPrepared = true
  /-- the barrier is open exactly if the primary goes on to it -/
  opens : (preparePrimary s w).memory.context.barrier.go = true ↔
    (preparePrimary s w).place = .tail (.initial s.platform.cores.primary)
  /-- an open barrier is open for all cores of the boot -/
  released : (preparePrimary s w).memory.context.barrier.go = true →
    (preparePrimary s w).memory.context.barrier =
      { w.context.barrier with go := true, cores := s.platform.cores.count }
  /-- a barrier that is not open is as it was -/
  withheld : (preparePrimary s w).memory.context.barrier.go = false →
    (preparePrimary s w).memory.context.barrier = w.context.barrier

/-- Starting the secondaries and preparing a boot, for cores that were assigned, with a stack and a
wake-up block for each in the address space, and a fresh boot context. -/
theorem releases_of_fits {base : PhysAddr} {startup : Startup.Memory room σ} {primaryHw : UInt64}
    {ids : List UInt64} (hcores : CoreMap.assign room primaryHw ids = .ok s.platform.cores)
    (hstacks : s.bootStacks.count = room)
    (hstacked : s.bootStacks.base.toNat + s.bootStacks.size * room < wordCount)
    (hblocks : startup.wakeups.base.toNat + WakeupBlock.size * room ≤ wordCount) :
    Releases s (World.mk (.initial F frames room base) startup) := by
  let w : World F frames room σ := ⟨.initial F frames room base, startup⟩
  have hends := isPrepared_run s w
  -- there is room for all cores, so opening the barrier does not cut their number
  have hrelease : Barrier.release {} s.platform.cores.count =
      { ({} : Barrier room) with go := true, cores := s.platform.cores.count } := by
    unfold Barrier.release Barrier.setCores Barrier.openGate
    rw [Nat.min_eq_left (CoreMap.count_le_of_assign hcores), Nat.max_eq_right CoreMap.count_pos]
  have hstarts : ∀ driver, (startupOf s driver).Starts startup := fun _ =>
    Startup.starts_of_fits hcores hstacks hstacked hblocks
  rcases (gated_run (w := w) s rfl rfl).of_isPrepared hends with ⟨hplace, hbarrier⟩ | ⟨hplace, hbarrier⟩
  · have hgo : (preparePrimary s w).memory.context.barrier.go = true := by rw [hbarrier, hrelease]
    exact ⟨hstarts, hends, iff_of_true hgo hplace, fun _ => hbarrier.trans hrelease,
      fun hclosed => absurd hgo (hclosed ▸ Bool.false_ne_true)⟩
  · have hgo : (preparePrimary s w).memory.context.barrier.go = false := by rw [hbarrier]
    exact ⟨hstarts, hends, iff_of_false (hgo ▸ Bool.false_ne_true) hplace,
      fun hopen => absurd (hgo.symm.trans hopen) Bool.false_ne_true, fun _ => hbarrier⟩

/-- Two cores of a boot that is prepared: the barrier is open for them. -/
theorem releases_of_fits_pair :
    let w : World .sv39 1 4 Unit := ⟨.initial .sv39 1 4 ⟨0x80300000⟩, { base := 0x80220000 }, ()⟩
    Releases Machine.pairSetup w ∧
      (preparePrimary Machine.pairSetup w).memory.context.barrier.go = true :=
  have hassign : CoreMap.assign 4 4 [7] = .ok Machine.pairSetup.platform.cores := rfl
  ⟨releases_of_fits hassign rfl (by decide) (by decide), by decide +kernel⟩

end Course

end BootLoader.Boot
