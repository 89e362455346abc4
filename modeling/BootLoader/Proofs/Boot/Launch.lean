import BootLoader.Proofs.Boot.Machine
import BootLoader.Proofs.Core.Cores

/-!
# Starting the secondaries of a machine

While the primary starts the secondaries, how many have been started tells which are left, and how
often it has made a block visible (`Startup.Stage.Sound`). A step either starts no core, or it starts
the next one with the address of the block that is filled in for it (`Startup.Launch`); it touches no
block of a core that was started before. So whenever a started core comes to read its block, the
block names the core.
-/

namespace BootLoader.Boot

open Paging (Format)
open Processor (Operation)

variable {F : Format} {frames room : Nat} {σ : Type}

/-- The block of a core is filled in. -/
def Filled (s : Setup σ) (wakeups : WakeupTable room) (core : CoreIdentity) : Prop :=
  ∃ stackTop, wakeups.get core.logical =
    some ⟨stackTop, core.hwId, UInt64.ofNat core.logical, s.contextAddress⟩

/-- A block that is not touched stays filled in. -/
theorem Filled.congr {s : Setup σ} {w u : WakeupTable room} {core : CoreIdentity}
    (h : Filled s w core) (hget : u.get core.logical = w.get core.logical) : Filled s u core := by
  obtain ⟨stackTop, hfilled⟩ := h
  exact ⟨stackTop, hget.trans hfilled⟩

/-- A core that wakes with the address of its block goes on as itself. -/
theorem Secondary.step_waking {s : Setup σ} {core : CoreIdentity} {w : World F frames room σ}
    (hfits : WakeupBlock.size * room ≤ wordCount) (hlogical : core.logical < room)
    (h : Filled s w.startup.wakeups core) :
    (Secondary.waking (w.startup.wakeups.address core.logical)).step s w =
      { value := .running core (.initial core), memory := w } := by
  obtain ⟨stackTop, hfilled⟩ := h
  have hword : core.logical < wordCount := by
    have hsize : WakeupBlock.size = 32 := rfl
    rw [hsize] at hfits
    omega
  unfold step
  dsimp only
  rw [WakeupTable.blockAt_address hfits hlogical, hfilled, Option.filter_some,
    if_pos (beq_self_eq_true s.contextAddress)]
  dsimp only
  rw [WakeupBlock.identity_eq hword]

namespace Startup

/-! ## Stages -/

/-- What holds when the primary, which has performed the operations `done`, has started the first
`started` secondaries. -/
def Stage.Sound (s : Setup σ) (wakeups : WakeupTable room) (started : Nat)
    (done : List Operation) : Stage → Prop
  | .remaining rest =>
    started ≤ s.platform.cores.others.length ∧
      rest = s.platform.cores.secondaries.drop started ∧
      done = List.replicate started .fenceData
  | .filled core _ block rest =>
    core :: rest = s.platform.cores.secondaries.drop started ∧
      block = wakeups.address core.logical ∧ Filled s wakeups core ∧
      done = List.replicate started .fenceData
  | .visible core _ block rest =>
    core :: rest = s.platform.cores.secondaries.drop started ∧
      block = wakeups.address core.logical ∧ Filled s wakeups core ∧
      done = List.replicate (started + 1) .fenceData
  | .finished =>
    started = s.platform.cores.others.length ∧ done = List.replicate started .fenceData
  | .failed _ => ∀ o ∈ done, o = .fenceData

/-- A step without operations adds none. -/
theorem fenced_append_nil {done : List Operation} (h : ∀ o ∈ done, o = .fenceData) :
    ∀ o ∈ done ++ [], o = .fenceData := by
  rwa [List.append_nil]

/-- Until it has started all secondaries, the primary has only made blocks visible. -/
theorem Stage.Sound.fenced {s : Setup σ} {wakeups : WakeupTable room} {started : Nat}
    {done : List Operation} {stage : Stage} (h : stage.Sound s wakeups started done) :
    ∀ o ∈ done, o = .fenceData := by
  cases stage with
  | remaining rest =>
    obtain ⟨-, -, rfl⟩ := h
    exact fun o ho => List.eq_of_mem_replicate ho
  | filled core stackTop block rest =>
    obtain ⟨-, -, -, rfl⟩ := h
    exact fun o ho => List.eq_of_mem_replicate ho
  | visible core stackTop block rest =>
    obtain ⟨-, -, -, rfl⟩ := h
    exact fun o ho => List.eq_of_mem_replicate ho
  | finished =>
    obtain ⟨-, rfl⟩ := h
    exact fun o ho => List.eq_of_mem_replicate ho
  | failed e => exact h

/-- What a step may do to the cores that have been started, `started` before it: it leaves their
blocks alone, and it starts none or the next, with the address of its block. -/
structure Launch (s : Setup σ) (before after : WakeupTable room) (started : Nat)
    (words : List UInt64) : Prop where
  /-- the blocks stay where they are -/
  base_eq : after.base = before.base
  /-- the blocks of the cores that were started stay as they are -/
  get_eq : ∀ logical ≤ started, after.get logical = before.get logical
  /-- the next core is started with its block -/
  next : ∀ index word, words[index]? = some word → index = 0 ∧
    ∃ core, s.platform.cores.secondaries[started]? = some core ∧
      word = after.address core.logical ∧ Filled s after core

/-- A step that does not touch the blocks and starts no core. -/
theorem Launch.none (s : Setup σ) (w : WakeupTable room) (started : Nat) :
    Launch s w w started [] where
  base_eq := rfl
  get_eq _ _ := rfl
  next _ _ h := by cases h

/-- The first of the cores that are left is the next. -/
theorem getElem?_of_drop {cores rest : List CoreIdentity} {core : CoreIdentity} {started : Nat}
    (h : core :: rest = cores.drop started) :
    cores[started]? = some core ∧ rest = cores.drop (started + 1) := by
  refine ⟨?_, ?_⟩
  · rw [← List.head?_drop, ← h]
    rfl
  · rw [← List.tail_drop, ← h]
    rfl

variable {s : Setup σ} {driver : Bringup.Driver σ} {m : Memory room σ} {started : Nat}
  {done : List Operation}

/-- Filling in the block of the next core. -/
theorem sound_fillBlock {core : CoreIdentity} {rest : List CoreIdentity}
    (hrest : core :: rest = s.platform.cores.secondaries.drop started)
    (hdone : done = List.replicate started .fenceData) :
    let next := (Course.startupOf s driver).fillBlock core rest m
    Launch s m.wakeups next.memory.wakeups started (startedWith next.actions) ∧
      next.value.Sound s next.memory.wakeups (started + (startedWith next.actions).length)
        (done ++ operationsOf next.actions) := by
  have hfailed : ∀ o ∈ done ++ [], o = Operation.fenceData :=
    fenced_append_nil fun o ho => List.eq_of_mem_replicate (hdone ▸ ho)
  unfold fillBlock
  dsimp only
  cases (Course.startupOf s driver).bootStacks.top core.logical with
  | none => exact ⟨Launch.none s m.wakeups started, hfailed⟩
  | some stackTop =>
    dsimp only
    cases hfill : m.wakeups.fill core.logical ((Course.startupOf s driver).block core stackTop) with
    | none => exact ⟨Launch.none s m.wakeups started, hfailed⟩
    | some filled =>
      obtain ⟨address, wakeups⟩ := filled
      obtain ⟨-, haddress, hbase, hself, hothers⟩ := WakeupTable.fill_eq_some hfill
      -- the next core is the one after all that were started, so its block is none of theirs
      have hlogical := CoreMap.logical_of_secondaries (getElem?_of_drop hrest).1
      refine ⟨⟨hbase, fun logical hle => hothers logical (by omega), nofun⟩, hrest, ?_,
        ⟨stackTop, hself⟩, ?_⟩
      · rw [haddress, WakeupTable.address_congr hbase]
      · rw [hdone]
        exact List.append_nil _

/-- Having the driver start the next core. -/
theorem sound_startCore {core : CoreIdentity} {rest : List CoreIdentity} {stackTop block : UInt64}
    (hrest : core :: rest = s.platform.cores.secondaries.drop started)
    (hblock : block = m.wakeups.address core.logical) (hfilled : Filled s m.wakeups core)
    (hdone : done = List.replicate (started + 1) .fenceData) :
    let next := (Course.startupOf s driver).startCore core stackTop block rest m
    Launch s m.wakeups next.memory.wakeups started (startedWith next.actions) ∧
      next.value.Sound s next.memory.wakeups (started + (startedWith next.actions).length)
        (done ++ operationsOf next.actions) := by
  obtain ⟨hcore, hrest'⟩ := getElem?_of_drop hrest
  have hlt : started < s.platform.cores.others.length := by
    rw [← CoreMap.length_secondaries]
    exact (List.getElem?_eq_some_iff.mp hcore).choose
  unfold startCore
  dsimp only
  generalize (Course.startupOf s driver).driver.start core.hwId (Course.startupOf s driver).entry
    block m.drivers = answer
  rw [operationsOf_append, startedWith_append, operationsOf_map_say, startedWith_map_say]
  cases hresult : answer.result with
  | ok =>
    refine ⟨⟨rfl, fun _ _ => rfl, fun index word hword => ?_⟩, hlt, hrest', ?_⟩
    · cases index with
      | zero =>
        cases hword
        exact ⟨rfl, core, hcore, hblock, hfilled⟩
      | succ index => cases hword
    · rw [hdone]
      exact List.append_nil (List.replicate (started + 1) Operation.fenceData)
  | error e =>
    exact ⟨⟨rfl, fun _ _ => rfl, nofun⟩,
      fenced_append_nil fun o ho => List.eq_of_mem_replicate (hdone ▸ ho)⟩

/-- A step of starting the secondaries. -/
theorem Stage.Sound.step {stage : Stage} (h : stage.Sound s m.wakeups started done) :
    let next := (Course.startupOf s driver).step stage m
    Launch s m.wakeups next.memory.wakeups started (startedWith next.actions) ∧
      next.value.Sound s next.memory.wakeups (started + (startedWith next.actions).length)
        (done ++ operationsOf next.actions) := by
  cases stage with
  | remaining rest =>
    obtain ⟨hle, hrest, hdone⟩ := h
    cases rest with
    | nil =>
      have hall : s.platform.cores.secondaries.length ≤ started :=
        List.drop_eq_nil_iff.mp hrest.symm
      rw [CoreMap.length_secondaries] at hall
      unfold Startup.step
      dsimp only
      rw [startedWith_map_say, operationsOf_map_say, List.append_nil]
      exact ⟨Launch.none s m.wakeups started, Nat.le_antisymm hle hall, hdone⟩
    | cons core rest => exact sound_fillBlock hrest hdone
  | filled core stackTop block rest =>
    obtain ⟨hrest, hblock, hfilled, hdone⟩ := h
    refine ⟨Launch.none s m.wakeups started, hrest, hblock, hfilled, ?_⟩
    rw [hdone]
    exact List.replicate_succ'.symm
  | visible core stackTop block rest =>
    obtain ⟨hrest, hblock, hfilled, hdone⟩ := h
    exact sound_startCore hrest hblock hfilled hdone
  | finished => exact ⟨Launch.none s m.wakeups started, h.1, (List.append_nil done).trans h.2⟩
  | failed e => exact ⟨Launch.none s m.wakeups started, fenced_append_nil h⟩

end Startup

end BootLoader.Boot
