import BootLoader.Proofs.Boot.Visitor
import Mathlib.Logic.Function.Basic

/-!
# Meeting at the barrier

A meeting is a barrier with the cores that are to pass it, numbered from zero, and the primary that
opens it (`Meeting`). Every step accesses the barrier once, and the steps of all parties come in any
order, so a run is a list that says whose step is next (`Meeting.run`). A core that waits steps
without getting anywhere, so a run may keep any core waiting for as long as it likes.

What every step keeps is a fact about each core, given where it is (`Visitor.Placed`), and a few
facts about all of them together (`Meeting.Orderly`): one core at a time is between taking and giving
back the lock, and the count of arrivals is the number of marks but for the core that has set its
mark and is not yet counted. What that says of a whole run is in `BootLoader.Proofs.Boot.Safety`.
-/

namespace BootLoader.Boot.Barrier

variable {room n : Nat}

/-! ## Meetings -/

/-- How far the primary is with opening the barrier. -/
inductive Opening where
  /-- it has not begun -/
  | closed
  /-- it has said how many cores meet -/
  | counted
  /-- it has let them in -/
  | opened
  deriving DecidableEq, Repr

/-- A barrier and the `n` cores that are to pass it. -/
structure Meeting (room n : Nat) where
  /-- the barrier -/
  barrier : Barrier room := {}
  /-- how far it is open -/
  opening : Opening := .closed
  /-- the cores -/
  visitors : Fin n → Visitor := fun id => { id }

/-- Whose step it is. -/
inductive Party (n : Nat) where
  /-- the primary opens the barrier -/
  | opener
  /-- a core passes it -/
  | core (id : Fin n)
  deriving DecidableEq, Repr

namespace Meeting

/-- The meeting after a core has moved. -/
def move (m : Meeting room n) (id : Fin n) (v : Visitor) (b : Barrier room) : Meeting room n :=
  { m with barrier := b, visitors := Function.update m.visitors id v }

/-- The meeting after the primary has gone on with opening the barrier for all cores. -/
def openNext (m : Meeting room n) : Meeting room n :=
  match m.opening with
  | .closed => { m with opening := .counted, barrier := m.barrier.setCores n }
  | .counted => { m with opening := .opened, barrier := m.barrier.openGate }
  | .opened => m

/-- The meeting after the next step of one party. -/
def step (m : Meeting room n) : Party n → Meeting room n
  | .opener => m.openNext
  | .core id =>
    let next := (m.visitors id).step m.barrier
    m.move id next.value next.memory

/-- The meeting after the steps of a schedule. -/
def run (m : Meeting room n) (schedule : List (Party n)) : Meeting room n := schedule.foldl step m

/-- What holds at every point of a meeting. -/
structure Orderly (m : Meeting room n) : Prop where
  /-- every core is where it says -/
  placed : ∀ i, (m.visitors i).Placed m.barrier n i
  /-- the cores are let in last -/
  opened : m.barrier.go = true → m.opening = .opened
  /-- by then it is said how many they are -/
  counted : m.opening ≠ .closed → m.barrier.cores = n
  /-- no other marks are set -/
  bounded : ∀ j, m.barrier.isReady j = true → j < n
  /-- one core at a time has the lock -/
  single : ∀ i j, (m.visitors i).phase.isInside = true → (m.visitors j).phase.isInside = true →
    i = j
  /-- every mark is counted -/
  arrivals_eq : (∀ i, (m.visitors i).phase ≠ .count) → m.barrier.arrivals = m.barrier.marks
  /-- except that of a core that is about to count it -/
  arrivals_lt : ∀ i, (m.visitors i).phase = .count → m.barrier.arrivals + 1 = m.barrier.marks
  /-- a core that was just counted is the last -/
  latest : ∀ i j p, (m.visitors i).phase = .tally → (m.visitors j).place = some p →
    p < m.barrier.arrivals
  /-- no two cores have the same place -/
  distinct : ∀ i j p, (m.visitors i).place = some p → (m.visitors j).place = some p → i = j

variable {m : Meeting room n}

/-- The core that has moved is where it moved to. -/
theorem move_self (i : Fin n) (v : Visitor) (b : Barrier room) : (m.move i v b).visitors i = v := by
  unfold move
  exact Function.update_self i v m.visitors

/-- All others are where they were. -/
theorem move_of_ne {i j : Fin n} (h : j ≠ i) (v : Visitor) (b : Barrier room) :
    (m.move i v b).visitors j = m.visitors j := by
  unfold move
  exact Function.update_of_ne h v m.visitors

/-- What holds of the core that has moved and of all others holds of all. -/
theorem forall_move {i : Fin n} {v : Visitor} {b : Barrier room} {P : Fin n → Visitor → Prop}
    (hself : P i v) (hothers : ∀ j, j ≠ i → P j (m.visitors j)) :
    ∀ j, P j ((m.move i v b).visitors j) := by
  intro j
  by_cases hj : j = i
  · subst hj
    rw [move_self]
    exact hself
  · rw [move_of_ne hj]
    exact hothers j hj

namespace Orderly

/-- A core can be counted only while it has the lock. -/
theorem not_count_of_unlocked (h : m.Orderly) (hlocked : m.barrier.locked = false) (i : Fin n) :
    (m.visitors i).phase ≠ .count := by
  intro hphase
  have := (h.placed i).locked (by rw [hphase]; rfl)
  rw [hlocked] at this
  cases this

/-- While one core has the lock, no other has. -/
theorem not_isInside (h : m.Orderly) {i j : Fin n}
    (hi : (m.visitors i).phase.isInside = true) (hj : j ≠ i) :
    (m.visitors j).phase.isInside = false := by
  rw [← Bool.not_eq_true]
  exact fun hinside => hj (h.single j i hinside hi)

/-- No more have arrived than there are cores. -/
theorem arrivals_le (h : m.Orderly) : m.barrier.arrivals ≤ n := by
  have hmarks : m.barrier.marks ≤ n := marks_le h.bounded
  by_cases hcount : ∃ i, (m.visitors i).phase = .count
  · obtain ⟨i, hi⟩ := hcount
    have := h.arrivals_lt i hi
    omega
  · have := h.arrivals_eq fun i hi => hcount ⟨i, hi⟩
    omega

/-- No two cores have the same place after a step in which a core keeps its place or is given a new
one. -/
theorem distinct_move (h : m.Orderly) {i : Fin n} {v : Visitor} {b : Barrier room}
    (hnew : ∀ j p, j ≠ i → (m.visitors j).place = some p → v.place ≠ some p) :
    ∀ j k p, ((m.move i v b).visitors j).place = some p →
      ((m.move i v b).visitors k).place = some p → j = k := by
  intro j k p hj hk
  by_cases hji : j = i <;> by_cases hki : k = i
  · rw [hji, hki]
  · subst hji
    rw [move_self] at hj
    rw [move_of_ne hki] at hk
    exact absurd hj (hnew k p hki hk)
  · subst hki
    rw [move_self] at hk
    rw [move_of_ne hji] at hj
    exact absurd hk (hnew j p hji hj)
  · rw [move_of_ne hji] at hj
    rw [move_of_ne hki] at hk
    exact h.distinct j k p hj hk

/-- A core that keeps its place shares it with no other. -/
theorem ne_place (h : m.Orderly) {i : Fin n} {v : Visitor}
    (hplace : v.place = (m.visitors i).place) :
    ∀ j p, j ≠ i → (m.visitors j).place = some p → v.place ≠ some p :=
  fun j p hj hp hv => hj (h.distinct j i p hp (hplace.symm.trans hv))

/-- The step of a core that neither sets its mark nor is counted nor looks at the count. It may take
the lock when nobody has it, and give it back when it has it. -/
theorem pass (h : m.Orderly) {i : Fin n} {v : Visitor} (locked : Bool)
    (hplaced : v.Placed { m.barrier with locked } n i)
    (hkeep : ∀ j, j ≠ i → (m.visitors j).phase.isInside = true → locked = true)
    (hinside : v.phase.isInside = true → ∀ j, j ≠ i → (m.visitors j).phase.isInside = false)
    (hbefore : (m.visitors i).phase ≠ .count) (hcount : v.phase ≠ .count)
    (htally : v.phase ≠ .tally) (hplace : v.place = (m.visitors i).place) :
    (m.move i v { m.barrier with locked }).Orderly := by
  refine ⟨?_, h.opened, h.counted, h.bounded, ?_, ?_, ?_, ?_, h.distinct_move (h.ne_place hplace)⟩
  · exact forall_move (P := fun j v => v.Placed _ n j) hplaced fun j hj =>
      (h.placed j).mono id rfl (fun _ => id) (hkeep j hj) (Nat.le_refl _)
  · intro j k hj hk
    by_cases hji : j = i <;> by_cases hki : k = i
    · rw [hji, hki]
    · subst hji
      rw [move_self] at hj
      rw [move_of_ne hki, hinside hj k hki] at hk
      cases hk
    · subst hki
      rw [move_self] at hk
      rw [move_of_ne hji, hinside hk j hji] at hj
      cases hj
    · rw [move_of_ne hji] at hj
      rw [move_of_ne hki] at hk
      exact h.single j k hj hk
  · intro hnone
    refine h.arrivals_eq fun j hj => hnone j ?_
    have hji : j ≠ i := fun hji => hbefore (by rw [← hji]; exact hj)
    rw [move_of_ne hji]
    exact hj
  · intro j hj
    by_cases hji : j = i
    · subst hji
      rw [move_self] at hj
      exact absurd hj hcount
    · rw [move_of_ne hji] at hj
      exact h.arrivals_lt j hj
  · intro j k p hj hk
    have hplaces : ((m.move i v { m.barrier with locked }).visitors k).place =
        (m.visitors k).place :=
      forall_move (P := fun k v => v.place = (m.visitors k).place) hplace (fun _ _ => rfl) k
    rw [hplaces] at hk
    by_cases hji : j = i
    · subst hji
      rw [move_self] at hj
      exact absurd hj htally
    · rw [move_of_ne hji] at hj
      exact h.latest j k p hj hk

/-- The step of a core that has the lock and keeps it. No other core has it then, so what the counts
and places have to satisfy depends on where this core is. -/
theorem keep (h : m.Orderly) {i : Fin n} {v : Visitor} {b : Barrier room}
    (hi : (m.visitors i).phase.isInside = true) (hgo : b.go = m.barrier.go)
    (hcores : b.cores = m.barrier.cores) (hplaced : v.Placed b n i)
    (hothers : ∀ j, j ≠ i → (m.visitors j).Placed b n j)
    (hbounded : ∀ j, b.isReady j = true → j < n)
    (heq : v.phase ≠ .count → b.arrivals = b.marks)
    (hlt : v.phase = .count → b.arrivals + 1 = b.marks)
    (hlatest : v.phase = .tally → ∀ j p, ((m.move i v b).visitors j).place = some p →
      p < b.arrivals)
    (hnew : ∀ j p, j ≠ i → (m.visitors j).place = some p → v.place ≠ some p) :
    (m.move i v b).Orderly := by
  -- whoever has the lock after the step is the core that made it
  have hself : ∀ j, ((m.move i v b).visitors j).phase.isInside = true → j = i := by
    intro j hj
    by_contra hne
    rw [move_of_ne hne, h.not_isInside hi hne] at hj
    cases hj
  refine ⟨forall_move (P := fun j v => v.Placed b n j) hplaced hothers,
    fun hopen => h.opened (hgo ▸ hopen), fun hopen => hcores.trans (h.counted hopen), hbounded,
    fun j k hj hk => (hself j hj).trans (hself k hk).symm, fun hnone => heq ?_, ?_, ?_,
    h.distinct_move hnew⟩
  · have := hnone i
    rwa [move_self] at this
  · intro j hj
    obtain rfl := hself j (by rw [hj]; rfl)
    rw [move_self] at hj
    exact hlt hj
  · intro j k p hj hk
    obtain rfl := hself j (by rw [hj]; rfl)
    rw [move_self] at hj
    exact hlatest hj k p hk

/-- While a core that is not about to be counted has the lock, all marks are counted. -/
theorem arrivals_eq_of_isInside (h : m.Orderly) {i : Fin n}
    (hi : (m.visitors i).phase.isInside = true) (hcount : (m.visitors i).phase ≠ .count) :
    m.barrier.arrivals = m.barrier.marks := by
  refine h.arrivals_eq fun j hj => hcount ?_
  rw [← h.single j i (by rw [hj]; rfl) hi]
  exact hj

/-- The step of a core that sets its mark. -/
theorem mark (hroom : n ≤ room) (h : m.Orderly) {i : Fin n}
    (hphase : (m.visitors i).phase = .mark) :
    (m.move i { m.visitors i with phase := .count } (m.barrier.mark i)).Orderly := by
  have hi : (m.visitors i).phase.isInside = true := by rw [hphase]; rfl
  have hp := h.placed i
  have hid : (i : Nat) < room := Nat.lt_of_lt_of_le i.isLt hroom
  have hunset : m.barrier.isReady i = false := by rw [hp.marked, hphase]; rfl
  have hset : (m.barrier.mark i).isReady i = true := by
    rw [isReady_mark _ hid, decide_eq_true rfl, Bool.true_or]
  have hmono : ∀ j, m.barrier.isReady j = true → (m.barrier.mark i).isReady j = true := by
    intro j hj
    rw [isReady_mark _ hid, hj, Bool.or_true]
  have hsome : (m.visitors i).place.isSome = false := by rw [hp.place_isSome, hphase]; rfl
  refine h.keep hi rfl rfl
    (hp.advance hphase nofun nofun rfl hset (fun _ => hp.locked hi) hsome hp.place_le nofun nofun)
    ?_ ?_ (fun hne => absurd rfl hne) ?_ nofun (h.ne_place rfl)
  · intro j hj
    refine (h.placed j).mono id ?_ hmono (h.placed j).locked (Nat.le_refl _)
    rw [isReady_mark _ hid, decide_eq_false fun e => hj (Fin.ext e), Bool.false_or]
  · intro j hj
    rw [isReady_mark _ hid, Bool.or_eq_true, decide_eq_true_eq] at hj
    rcases hj with rfl | hj
    · exact i.isLt
    · exact h.bounded j hj
  · intro _
    rw [marks_mark hid hunset, ← h.arrivals_eq_of_isInside hi (by rw [hphase]; nofun)]
    rfl

/-- The step of a core that is counted. -/
theorem count (h : m.Orderly) {i : Fin n} (hphase : (m.visitors i).phase = .count) :
    (m.move i { m.visitors i with phase := .tally } m.barrier.countArrival).Orderly := by
  have hi : (m.visitors i).phase.isInside = true := by rw [hphase]; rfl
  have hp := h.placed i
  have hset : m.barrier.isReady i = true := by rw [hp.marked, hphase]; rfl
  have hsome : (m.visitors i).place.isSome = false := by rw [hp.place_isSome, hphase]; rfl
  have hnone : ∀ p, (m.visitors i).place ≠ some p := by
    intro p hplace
    rw [hplace] at hsome
    cases hsome
  refine h.keep hi rfl rfl
    (hp.advance hphase nofun nofun rfl hset (fun _ => hp.locked hi) hsome
      (fun p hplace => absurd hplace (hnone p)) nofun nofun)
    (fun j _ => (h.placed j).mono id rfl (fun _ => id) (h.placed j).locked (Nat.le_succ _))
    h.bounded (fun _ => h.arrivals_lt i hphase) nofun ?_ (h.ne_place rfl)
  -- whoever has a place got it before this core was counted
  intro _
  refine forall_move (P := fun _ v => ∀ p, v.place = some p → p < m.barrier.arrivals + 1)
    (fun p hplace => absurd hplace (hnone p)) fun j _ p hplace => ?_
  exact Nat.lt_succ_of_le ((h.placed j).place_le p hplace).2

/-- The step of a core that looks how many have arrived. -/
theorem tally (h : m.Orderly) {i : Fin n} (hphase : (m.visitors i).phase = .tally) :
    (m.move i { m.visitors i with phase := .unlock, place := some m.barrier.arrivals }
      m.barrier).Orderly := by
  have hi : (m.visitors i).phase.isInside = true := by rw [hphase]; rfl
  have hp := h.placed i
  have heq : m.barrier.arrivals = m.barrier.marks :=
    h.arrivals_eq_of_isInside hi (by rw [hphase]; nofun)
  have hset : m.barrier.isReady i = true := by rw [hp.marked, hphase]; rfl
  have hle : ∀ p, some m.barrier.arrivals = some p → 1 ≤ p ∧ p ≤ m.barrier.arrivals := by
    rintro p ⟨⟩
    exact ⟨heq ▸ marks_pos hset, Nat.le_refl _⟩
  refine h.keep hi rfl rfl
    (hp.advance hphase nofun nofun rfl hset (fun _ => hp.locked hi) rfl hle nofun nofun)
    (fun j _ => h.placed j) h.bounded (fun _ => heq) nofun nofun ?_
  rintro j p - hplace ⟨⟩
  exact Nat.lt_irrefl _ (h.latest i j _ hphase hplace)

/-- The step of a core that is not about to mark its arrival, and leaves the barrier as it is. -/
theorem stay (h : m.Orderly) {i : Fin n} {v : Visitor} (hplaced : v.Placed m.barrier n i)
    (hbefore : (m.visitors i).phase.isInside = false) (hafter : v.phase.isInside = false)
    (hplace : v.place = (m.visitors i).place) : (m.move i v m.barrier).Orderly := by
  have hne : ∀ {phase inside : Phase}, phase.isInside = false → inside.isInside = true →
      phase ≠ inside := by
    rintro phase inside hfalse htrue rfl
    rw [hfalse] at htrue
    cases htrue
  refine h.pass m.barrier.locked hplaced (fun j _ hj => (h.placed j).locked hj) ?_ (hne hbefore rfl)
    (hne hafter rfl) (hne hafter rfl) hplace
  intro hin
  rw [hafter] at hin
  cases hin

/-- A core that was let in finds the number of the cores. -/
theorem cores_eq (h : m.Orderly) {i : Fin n} (hphase : (m.visitors i).phase ≠ .awaitGo) :
    m.barrier.cores = n := by
  refine h.counted ?_
  rw [h.opened ((h.placed i).go hphase)]
  nofun

/-- What holds at every point survives the step of a core. -/
theorem core (hroom : n ≤ room) (h : m.Orderly) (i : Fin n) : (m.step (.core i)).Orderly := by
  have hp := h.placed i
  simp only [Meeting.step, Visitor.step]
  cases hphase : (m.visitors i).phase with
  | awaitGo =>
    cases hgo : m.barrier.go with
    | false =>
      show (m.move i (m.visitors i) m.barrier).Orderly
      exact h.stay hp (by rw [hphase]; rfl) (by rw [hphase]; rfl) rfl
    | true =>
      refine h.stay ?_ (by rw [hphase]; rfl) rfl rfl
      exact
        { id_eq := hp.id_eq
          go := fun _ => hgo
          marked := hp.marked.trans (by rw [hphase]; rfl)
          locked := nofun
          isAlone := fun _ hcount => absurd rfl hcount
          place_isSome := hp.place_isSome.trans (by rw [hphase]; rfl)
          place_le := hp.place_le
          scanned := nofun
          left := nofun }
  | countCores =>
    have hlet : (m.visitors i).phase ≠ .awaitGo := by rw [hphase]; nofun
    refine h.stay ?_ (by rw [hphase]; rfl) rfl rfl
    exact
      { id_eq := hp.id_eq
        go := fun _ => hp.go hlet
        marked := hp.marked.trans (by rw [hphase]; rfl)
        locked := nofun
        isAlone := fun _ _ => by rw [h.cores_eq hlet]
        place_isSome := hp.place_isSome.trans (by rw [hphase]; rfl)
        place_le := hp.place_le
        scanned := nofun
        left := nofun }
  | lock =>
    cases hlocked : m.barrier.locked with
    | true =>
      show (m.move i (m.visitors i) m.barrier).Orderly
      exact h.stay hp (by rw [hphase]; rfl) (by rw [hphase]; rfl) rfl
    | false =>
      refine h.pass true (hp.turn hphase nofun nofun rfl rfl (fun _ => rfl) nofun nofun)
        (fun _ _ _ => rfl) ?_ (by rw [hphase]; nofun) nofun nofun rfl
      -- the lock is free, so nobody has it
      intro _ j _
      rw [← Bool.not_eq_true]
      intro hin
      have := (h.placed j).locked hin
      rw [hlocked] at this
      cases this
  | mark =>
    -- each core marks itself once, so the mark is not set yet and the core goes on to be counted
    have hunset : m.barrier.isReady i = false := hp.marked.trans (by rw [hphase]; rfl)
    have hexpected := isExpected_of_not_isReady (Nat.lt_of_lt_of_le i.isLt hroom) hunset
    have hmark := h.mark hroom hphase
    rw [← hp.id_eq] at hexpected hmark
    rw [hexpected]
    exact hmark
  | count => exact h.count hphase
  | tally => exact h.tally hphase
  | unlock =>
    have hin : (m.visitors i).phase.isInside = true := by rw [hphase]; rfl
    have hkeep : ∀ j, j ≠ i → (m.visitors j).phase.isInside = true → false = true := by
      intro j hj hin'
      rw [h.not_isInside hin hj] at hin'
      cases hin'
    show (m.move i
      { m.visitors i with phase := if (m.visitors i).isAlone then .left else .report }
      { m.barrier with locked := false }).Orderly
    split
    next halone =>
      -- a core that is alone does not look at the marks: the only one is its own
      refine h.pass false (hp.turn hphase nofun nofun rfl rfl nofun nofun ?_) hkeep nofun
        (by rw [hphase]; nofun) nofun nofun rfl
      intro _ j hj
      have hknown := hp.isAlone (by rw [hphase]; nofun) (by rw [hphase]; nofun)
      have hn : n = 1 := by simpa [halone] using hknown
      have hji : j = i := by omega
      rw [hji]
      exact hp.marked.trans (by rw [hphase]; rfl)
    next =>
      exact h.pass false (hp.turn hphase nofun nofun rfl rfl nofun nofun nofun) hkeep nofun
        (by rw [hphase]; nofun) nofun nofun rfl
  | report =>
    exact h.stay (hp.turn hphase nofun nofun rfl rfl nofun nofun nofun) (by rw [hphase]; rfl) rfl
      rfl
  | beginScan =>
    refine h.stay (hp.turn hphase nofun nofun rfl rfl nofun ?_ nofun) (by rw [hphase]; rfl) rfl rfl
    rintro index limit ⟨⟩
    exact ⟨h.cores_eq (by rw [hphase]; nofun), nofun⟩
  | scan index limit =>
    obtain ⟨hlimit, hbelow⟩ := hp.scanned index limit hphase
    by_cases hindex : index < limit
    · simp only [hindex, if_true]
      cases hready : m.barrier.isReady index with
      | true =>
        refine h.stay (hp.turn hphase nofun nofun rfl rfl nofun ?_ nofun) (by rw [hphase]; rfl)
          rfl rfl
        rintro k l ⟨⟩
        refine ⟨hlimit, fun j hj => ?_⟩
        rcases Nat.lt_succ_iff_lt_or_eq.mp hj with hlt | rfl
        · exact hbelow j hlt
        · exact hready
      | false =>
        exact h.stay (hp.turn hphase nofun nofun rfl rfl nofun nofun nofun) (by rw [hphase]; rfl)
          rfl rfl
    · simp only [hindex, if_false]
      refine h.stay (hp.turn hphase nofun nofun rfl rfl nofun nofun ?_) (by rw [hphase]; rfl) rfl
        rfl
      exact fun _ j hj => hbelow j (by omega)
  | left =>
    show (m.move i (m.visitors i) m.barrier).Orderly
    exact h.stay hp (by rw [hphase]; rfl) (by rw [hphase]; rfl) rfl

/-- What holds at every point survives the step of the primary that opens the barrier. -/
theorem openNext (hn : 1 ≤ n) (hroom : n ≤ room) (h : m.Orderly) : m.openNext.Orderly := by
  unfold Meeting.openNext
  cases hopening : m.opening with
  | closed =>
    refine ⟨?_, ?_, ?_, h.bounded, h.single, h.arrivals_eq, h.arrivals_lt, h.latest, h.distinct⟩
    · exact fun i => (h.placed i).mono id rfl (fun _ => id) (h.placed i).locked (Nat.le_refl _)
    · intro hgo
      have := h.opened hgo
      rw [hopening] at this
      cases this
    · intro _
      show max 1 (min n room) = n
      omega
  | counted =>
    refine ⟨?_, fun _ => rfl, fun _ => ?_, h.bounded, h.single, h.arrivals_eq, h.arrivals_lt,
      h.latest, h.distinct⟩
    · exact fun i => (h.placed i).mono (fun _ => rfl) rfl (fun _ => id) (h.placed i).locked
        (Nat.le_refl _)
    · exact h.counted (by rw [hopening]; nofun)
  | opened => exact h

/-- What holds at every point survives the step of any party. -/
theorem step (hn : 1 ≤ n) (hroom : n ≤ room) (h : m.Orderly) (p : Party n) :
    (m.step p).Orderly := by
  cases p with
  | opener => exact h.openNext hn hroom
  | core i => exact h.core hroom i

/-- What holds at every point holds before the first step. -/
theorem initial : ({} : Meeting room n).Orderly where
  placed i :=
    { id_eq := rfl
      go := fun h => absurd rfl h
      marked := isReady_empty i
      locked := nofun
      isAlone := fun h => absurd rfl h
      place_isSome := rfl
      place_le := nofun
      scanned := nofun
      left := nofun }
  opened := nofun
  counted h := absurd rfl h
  bounded j h := by
    rw [isReady_empty] at h
    cases h
  single := nofun
  arrivals_eq _ := by simp [marks, Vector.count_replicate]
  arrivals_lt := nofun
  latest := nofun
  distinct := nofun

/-- What holds at every point survives a run. -/
theorem run (hn : 1 ≤ n) (hroom : n ≤ room) (h : m.Orderly) (schedule : List (Party n)) :
    (m.run schedule).Orderly := by
  induction schedule generalizing m with
  | nil => exact h
  | cons p schedule ih => exact ih (h.step hn hroom p)

end Orderly

end Meeting

end BootLoader.Boot.Barrier
