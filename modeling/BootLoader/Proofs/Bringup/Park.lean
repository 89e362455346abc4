import BootLoader.Bringup.SpinTable
import Mathlib.Logic.Function.Basic

/-!
# Starting parked cores

One core starts others that are parked, one after the other, through the one mailbox that they all
leave by (`Park`). Its calls and the released cores access that memory in steps that come in any
order, so a run is a list that says whose step is next (`Park.run`). A core watches the word that
the table has for it; a call that the table has no start for is answered at once.

Every store to the shared memory is written down with the call or the core that made it, so that
what has been posted, and what has been taken by whom, is read off the stores (`Park.posted`,
`Park.taken`). The stores account for the memory, and each call returns what the table answers
(`Park.Accounted`).
-/

namespace BootLoader.Bringup

/-! ## The machine -/

/-- A call that starts a core. -/
structure StartRequest where
  /-- the core -/
  hwId : UInt64
  /-- where it goes on -/
  entry : PhysAddr
  /-- its word of context -/
  context : UInt64
  deriving DecidableEq, Repr

/-- A pair that goes through the mailbox, and the core that it is for or that has taken it. -/
structure Parcel where
  /-- the core -/
  hwId : UInt64
  /-- the entry point -/
  entry : UInt64
  /-- the word of context -/
  context : UInt64
  deriving DecidableEq, Repr

/-- The pair that a call hands over. -/
def StartRequest.parcel (q : StartRequest) : Parcel :=
  { hwId := q.hwId, entry := q.entry.raw, context := q.context }

/-- A table, and the calls that are made with it, in their order. -/
structure Roster where
  /-- the table, and the memory before the first call -/
  table : SpinTable
  /-- the calls -/
  requests : List StartRequest

namespace Roster

/-- The start that a call makes, or why it makes none. -/
def startOf (r : Roster) (q : StartRequest) : Except DriverError Start :=
  r.table.startFor q.hwId q.entry q.context

/-- The word that a core watches which the calls are to start. No other core watches a word: one that
is not called for, and shares its word with one that is, is outside the machine. -/
def word (r : Roster) (hwId : UInt64) : Option PhysAddr :=
  if hwId ∈ r.requests.map (·.hwId) then r.table.releaseAddr hwId else none

end Roster

/-- A store to the memory that the cores share. -/
inductive Store where
  /-- a call writes the entry point -/
  | putEntry (q : StartRequest)
  /-- a call writes the context -/
  | putContext (q : StartRequest)
  /-- a call writes a release word -/
  | putRelease (q : StartRequest) (word : PhysAddr)
  /-- a core that leaves empties the mailbox -/
  | clearContext (parcel : Parcel)
  deriving DecidableEq, Repr

namespace Store

/-- The memory after a store. -/
def apply (h : Handover) : Store → Handover
  | putEntry q => { h with mailbox := { h.mailbox with entry := q.entry.raw } }
  | putContext q => { h with mailbox := { h.mailbox with context := q.context } }
  | putRelease _ word => { h with released := h.released ++ [word] }
  | clearContext _ => { h with mailbox := { h.mailbox with context := 0 } }

/-- The call that has made a store. -/
def request? : Store → Option StartRequest
  | putEntry q => some q
  | putContext q => some q
  | putRelease q _ => some q
  | clearContext _ => none

/-- The pair whose posting is completed by a store. -/
def posted? : Store → Option Parcel
  | putContext q => some q.parcel
  | _ => none

/-- The pair that is taken by a store. -/
def taken? : Store → Option Parcel
  | clearContext parcel => some parcel
  | _ => none

/-- The store that a call makes with the next step of its start. -/
def ofStart (q : StartRequest) (s : Start) : List Store :=
  match s.step with
  | .postEntry => [putEntry q]
  | .postContext => [putContext q]
  | .writeRelease => [putRelease q s.release]
  | _ => []

/-- The store that a core makes with its next step. -/
def ofCore (hwId : UInt64) : Parked → List Store
  | .clear entry context => [clearContext { hwId, entry, context }]
  | _ => []

end Store

/-- Calls under way, and the cores that they start. -/
structure Park where
  /-- the memory that they share -/
  memory : Handover
  /-- the calls that are still to be made -/
  todo : List StartRequest
  /-- the call under way, and how far its start is -/
  current : Option (StartRequest × Start) := none
  /-- the calls that have returned, with what they have returned -/
  answers : List (StartRequest × Except DriverError Unit) := []
  /-- the cores -/
  cores : UInt64 → Parked := fun _ => .watching
  /-- the stores so far, oldest first -/
  stores : List Store := []

/-- Whose step it is. -/
inductive Party where
  /-- the core that makes the calls -/
  | caller
  /-- a parked core -/
  | core (hwId : UInt64)
  deriving DecidableEq, Repr

namespace Park

/-- Before the first call. -/
def initial (r : Roster) : Park := { memory := r.table.handover, todo := r.requests }

/-- The pairs that have been posted, oldest first. -/
def posted (p : Park) : List Parcel := p.stores.filterMap Store.posted?

/-- The pairs that have been taken, and by which cores, oldest first. -/
def taken (p : Park) : List Parcel := p.stores.filterMap Store.taken?

/-- After the next step of the start that is under way for the call `q`. -/
def startNext (p : Park) (q : StartRequest) (s : Start) : Park :=
  { p with
    memory := (s.next p.memory).2
    current := some (q, (s.next p.memory).1)
    stores := p.stores ++ Store.ofStart q s }

/-- After the next step of the calls. -/
def callNext (r : Roster) (p : Park) : Park :=
  match p.current with
  | some (q, s) =>
    if s.step = .finished then
      { p with current := none, answers := p.answers ++ [(q, .ok ())] }
    else p.startNext q s
  | none =>
    match p.todo with
    | [] => p
    | q :: todo =>
      match r.startOf q with
      | .error e => { p with todo, answers := p.answers ++ [(q, .error e)] }
      | .ok s => { p with todo, current := some (q, s) }

/-- After the next step of the core that watches the word at `word`. -/
def parkedNext (p : Park) (hwId : UInt64) (word : PhysAddr) : Park :=
  { p with
    memory := ((p.cores hwId).next word p.memory).2
    cores := Function.update p.cores hwId ((p.cores hwId).next word p.memory).1
    stores := p.stores ++ Store.ofCore hwId (p.cores hwId) }

/-- After the next step of a core, if there is one to be started. -/
def coreNext (r : Roster) (p : Park) (hwId : UInt64) : Park :=
  match r.word hwId with
  | none => p
  | some word => p.parkedNext hwId word

/-- After the next step of one party. -/
def step (r : Roster) (p : Park) : Party → Park
  | .caller => p.callNext r
  | .core hwId => p.coreNext r hwId

/-- After the steps of a schedule. -/
def run (r : Roster) (p : Park) (schedule : List Party) : Park := schedule.foldl (step r) p

/-- What a step of the calls can be. -/
inductive CallStep (r : Roster) (p : Park) : Park → Prop where
  /-- all calls have returned -/
  | idle (hcurrent : p.current = none) (htodo : p.todo = []) : CallStep r p p
  /-- the next call makes no start -/
  | refuse {q : StartRequest} {todo : List StartRequest} {e : DriverError}
      (hcurrent : p.current = none) (htodo : p.todo = q :: todo) (hstart : r.startOf q = .error e) :
      CallStep r p { p with todo, answers := p.answers ++ [(q, .error e)] }
  /-- the next call makes a start -/
  | begin {q : StartRequest} {todo : List StartRequest} {s : Start} (hcurrent : p.current = none)
      (htodo : p.todo = q :: todo) (hstart : r.startOf q = .ok s) :
      CallStep r p { p with todo, current := some (q, s) }
  /-- the start under way goes on -/
  | proceed {q : StartRequest} {s : Start} (hcurrent : p.current = some (q, s))
      (hstep : s.step ≠ .finished) : CallStep r p (p.startNext q s)
  /-- the call under way returns -/
  | answer {q : StartRequest} {s : Start} (hcurrent : p.current = some (q, s))
      (hstep : s.step = .finished) :
      CallStep r p { p with current := none, answers := p.answers ++ [(q, .ok ())] }

/-- A step of the calls is one of those. -/
theorem callStep (r : Roster) (p : Park) : p.CallStep r (p.callNext r) := by
  cases hcurrent : p.current with
  | none =>
    cases htodo : p.todo with
    | nil => simpa [callNext, hcurrent, htodo] using CallStep.idle hcurrent htodo
    | cons q todo =>
      cases hstart : r.startOf q with
      | error e =>
        simpa [callNext, hcurrent, htodo, hstart] using CallStep.refuse hcurrent htodo hstart
      | ok s => simpa [callNext, hcurrent, htodo, hstart] using CallStep.begin hcurrent htodo hstart
  | some current =>
    obtain ⟨q, s⟩ := current
    by_cases hstep : s.step = .finished
    · simpa [callNext, hcurrent, hstep] using CallStep.answer hcurrent hstep
    · simpa [callNext, hcurrent, hstep] using CallStep.proceed hcurrent hstep

/-- What a step of a core can be. -/
inductive CoreStep (r : Roster) (p : Park) (hwId : UInt64) : Park → Prop where
  /-- the core is not to be started -/
  | absent (hword : r.word hwId = none) : CoreStep r p hwId p
  /-- the core goes on -/
  | proceed {word : PhysAddr} (hword : r.word hwId = some word) :
      CoreStep r p hwId (p.parkedNext hwId word)

/-- A step of a core is one of those. -/
theorem coreStep (r : Roster) (p : Park) (hwId : UInt64) :
    p.CoreStep r hwId (p.coreNext r hwId) := by
  cases hword : r.word hwId with
  | none => simpa only [coreNext, hword] using CoreStep.absent hword
  | some word => simpa only [coreNext, hword] using CoreStep.proceed hword

end Park

/-! ## Posted and taken -/

namespace Store

/-- A start posts its pair with the context, which it writes last. -/
@[simp]
theorem filterMap_posted_ofStart (q : StartRequest) (s : Start) :
    (ofStart q s).filterMap posted? = if s.step = .postContext then [q.parcel] else [] := by
  cases hstep : s.step <;> simp [ofStart, hstep, posted?, List.filterMap_cons]

/-- A start takes nothing. -/
@[simp]
theorem filterMap_taken_ofStart (q : StartRequest) (s : Start) :
    (ofStart q s).filterMap taken? = [] := by
  cases hstep : s.step <;> simp [ofStart, hstep, taken?, List.filterMap_cons]

/-- A core posts nothing. -/
@[simp]
theorem filterMap_posted_ofCore (hwId : UInt64) (core : Parked) :
    (ofCore hwId core).filterMap posted? = [] := by
  cases core <;> simp [ofCore, posted?, List.filterMap_cons]

/-- The store of a start is made for its call. -/
theorem request_of_mem_ofStart {q : StartRequest} {s : Start} {store : Store}
    (h : store ∈ ofStart q s) : store.request? = some q := by
  cases hstep : s.step <;> simp only [ofStart, hstep, List.mem_singleton, List.not_mem_nil] at h <;>
    simp [h, request?]

/-- The store of a core is made for no call. -/
theorem request_of_mem_ofCore {hwId : UInt64} {core : Parked} {store : Store}
    (h : store ∈ ofCore hwId core) : store.request? = none := by
  cases core <;> simp only [ofCore, List.mem_singleton, List.not_mem_nil] at h
  simp [h, request?]

end Store

namespace Park

section

variable (p : Park) (memory : Handover) (todo : List StartRequest)
  (current : Option (StartRequest × Start))
  (answers : List (StartRequest × Except DriverError Unit)) (cores : UInt64 → Parked)
  (stores : List Store)

/-- What a step posts comes last. -/
@[simp]
theorem posted_append :
    posted { memory, todo, current, answers, cores, stores := p.stores ++ stores } =
      p.posted ++ stores.filterMap Store.posted? := by
  simp [posted]

/-- What a step takes comes last. -/
@[simp]
theorem taken_append :
    taken { memory, todo, current, answers, cores, stores := p.stores ++ stores } =
      p.taken ++ stores.filterMap Store.taken? := by
  simp [taken]

end

end Park

/-! ## What the stores account for -/

/-- The start that a call makes writes what the call hands over, and never a context of zero. -/
theorem SpinTable.startFor_ok {t : SpinTable} {hwId : UInt64} {entry : PhysAddr}
    {context : UInt64} {s : Start} (h : t.startFor hwId entry context = .ok s) :
    t.releaseAddr hwId = some s.release ∧ s.entry = entry.raw ∧ s.context = context ∧
      context ≠ 0 ∧ s.step = .awaitEmpty := by
  unfold SpinTable.startFor at h
  grind

/-- A call returns the error when no start is made for it. -/
theorem SpinTable.result_start (t : SpinTable) (hwId : UInt64) (entry : PhysAddr)
    (context : UInt64) :
    (SpinTable.start hwId entry context t).result =
      (t.startFor hwId entry context).map fun _ => () := by
  unfold SpinTable.start
  cases t.startFor hwId entry context <;> rfl

/-- Then it leaves the table as it was. -/
theorem SpinTable.state_start {t : SpinTable} {hwId : UInt64} {entry : PhysAddr}
    {context : UInt64} {e : DriverError}
    (h : (SpinTable.start hwId entry context t).result = .error e) :
    (SpinTable.start hwId entry context t).state = t := by
  unfold SpinTable.start at h ⊢
  cases hstart : t.startFor hwId entry context with
  | error _ => rfl
  | ok s => simp [hstart, Answer.accept] at h

/-- A step of a start changes what is still to be done, and nothing else of it. -/
theorem Start.begun_next (s : Start) (h : Handover) :
    { (s.next h).1 with step := .awaitEmpty } = { s with step := .awaitEmpty } := by
  cases hstep : s.step <;> simp only [Start.next, hstep]
  split <;> rfl

/-- A step of a start changes the memory by the store that it makes. -/
theorem Start.memory_next {q : StartRequest} {s : Start} (hentry : s.entry = q.entry.raw)
    (hcontext : s.context = q.context) (h : Handover) :
    (s.next h).2 = (Store.ofStart q s).foldl Store.apply h := by
  cases hstep : s.step <;> simp [Start.next, Store.ofStart, Store.apply, hstep, hentry, hcontext]

/-- A step of a core changes the memory by the store that it makes. -/
theorem Parked.memory_next (core : Parked) (hwId : UInt64) (word : PhysAddr) (h : Handover) :
    (core.next word h).2 = (Store.ofCore hwId core).foldl Store.apply h := by
  cases core <;> rfl

namespace Park

/-- What the stores and the answers account for. -/
structure Accounted (r : Roster) (p : Park) : Prop where
  /-- the memory is what the stores have made of it -/
  memory_eq : p.memory = p.stores.foldl Store.apply r.table.handover
  /-- the calls are made in their order -/
  requests_eq : p.answers.map (·.1) ++ (p.current.map (·.1)).toList ++ p.todo = r.requests
  /-- the start under way is the one that its call makes -/
  current : ∀ q s, p.current = some (q, s) → r.startOf q = .ok { s with step := .awaitEmpty }
  /-- a call returns what the table answers -/
  answers : ∀ q result, (q, result) ∈ p.answers → result = (r.startOf q).map fun _ => ()
  /-- no store is made for a call that makes no start -/
  stores : ∀ store ∈ p.stores, ∀ q, store.request? = some q → ∃ s, r.startOf q = .ok s
  /-- cores that are not to be started stay where they are -/
  watching : ∀ hwId, r.word hwId = none → p.cores hwId = .watching

namespace Accounted

variable {r : Roster} {p : Park}

/-- What the stores account for before the first call. -/
theorem initial : (initial r).Accounted r where
  memory_eq := rfl
  requests_eq := rfl
  current := nofun
  answers := nofun
  stores := nofun
  watching _ _ := rfl

/-- What the stores account for survives the step of the calls. -/
theorem callStep {p' : Park} (h : p.Accounted r) (hstep : p.CallStep r p') : p'.Accounted r := by
  have hrequests := h.requests_eq
  cases hstep with
  | idle => exact h
  | @refuse q todo e hcurrent htodo hstart =>
    refine
      { h with
        requests_eq := by simpa [hcurrent, htodo] using hrequests
        answers := ?_ }
    intro q' result hmem
    rcases List.mem_append.mp hmem with hbefore | hnow
    · exact h.answers q' result hbefore
    · obtain ⟨⟩ := List.mem_singleton.mp hnow
      simp [hstart, Except.map]
  | begin hcurrent htodo hstart =>
    refine
      { h with
        requests_eq := by simpa [hcurrent, htodo] using hrequests
        current := ?_ }
    rintro q s ⟨⟩
    rw [hstart, ← (SpinTable.startFor_ok hstart).2.2.2.2]
  | @proceed q s hcurrent hstep =>
    have hserves := h.current q s hcurrent
    obtain ⟨-, hentry, hcontext, -⟩ := SpinTable.startFor_ok hserves
    refine
      { h with
        memory_eq := by
          rw [startNext, List.foldl_append, ← h.memory_eq]
          exact Start.memory_next (s := s) hentry hcontext p.memory
        requests_eq := by simpa [startNext, hcurrent] using hrequests
        current := ?_
        stores := ?_ }
    · rintro q s ⟨⟩
      rw [hserves, Start.begun_next]
    · intro store hmem q' hq'
      rcases List.mem_append.mp hmem with hbefore | hnow
      · exact h.stores store hbefore q' hq'
      · obtain rfl := Option.some.inj ((Store.request_of_mem_ofStart hnow).symm.trans hq')
        exact ⟨_, hserves⟩
  | @answer q s hcurrent hstep =>
    refine
      { h with
        requests_eq := by simpa [hcurrent] using hrequests
        current := nofun
        answers := ?_ }
    intro q' result hmem
    rcases List.mem_append.mp hmem with hbefore | hnow
    · exact h.answers q' result hbefore
    · obtain ⟨⟩ := List.mem_singleton.mp hnow
      simp [h.current q s hcurrent, Except.map]

/-- What the stores account for survives the step of a core. -/
theorem coreStep {p' : Park} {hwId : UInt64} (h : p.Accounted r)
    (hstep : p.CoreStep r hwId p') : p'.Accounted r := by
  cases hstep with
  | absent => exact h
  | proceed hword =>
    refine
      { h with
        memory_eq := by
          rw [parkedNext, List.foldl_append, ← h.memory_eq]
          exact (p.cores hwId).memory_next hwId _ p.memory
        stores := ?_
        watching := ?_ }
    · intro store hmem q hq
      rcases List.mem_append.mp hmem with hbefore | hnow
      · exact h.stores store hbefore q hq
      · rw [Store.request_of_mem_ofCore hnow] at hq
        cases hq
    · exact (Function.forall_update_iff p.cores (p := fun hwId core =>
        r.word hwId = none → core = .watching)).mpr
        ⟨fun hnone => by simp [hword] at hnone, fun other _ => h.watching other⟩

/-- What the stores account for survives a run. -/
theorem run (h : p.Accounted r) (schedule : List Party) : (p.run r schedule).Accounted r := by
  induction schedule generalizing p with
  | nil => exact h
  | cons party schedule ih =>
    cases party with
    | caller => exact ih (h.callStep (p.callStep r))
    | core hwId => exact ih (h.coreStep (p.coreStep r hwId))

end Accounted

end Park

end BootLoader.Bringup
