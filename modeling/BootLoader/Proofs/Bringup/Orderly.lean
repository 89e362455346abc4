import BootLoader.Proofs.Bringup.Park
import Mathlib.Data.List.Nodup

/-!
# What holds while parked cores are started

What every step of a call and of a core keeps is that at most one pair is in the mailbox and not yet
taken, and that of the released cores only the one it is for has not left (`Park.Orderly`). What
that says of a whole run is in `BootLoader.Proofs.Bringup.Delivery`.
-/

namespace BootLoader.Bringup

/-! ## What holds between two steps -/

/-- What the calls of a roster rely on. -/
structure Roster.Ready (r : Roster) : Prop where
  /-- they are for different cores -/
  distinct : (r.requests.map (·.hwId)).Nodup
  /-- no two of the cores watch one word -/
  apart : ∀ q ∈ r.requests, ∀ q' ∈ r.requests, ∀ word ∈ r.table.releaseAddr q.hwId,
    word ∈ r.table.releaseAddr q'.hwId → q.hwId = q'.hwId
  /-- nothing is in the mailbox before the first call -/
  isEmpty : r.table.handover.mailbox.isEmpty = true
  /-- none of the cores has been released before -/
  parked : ∀ q ∈ r.requests, ∀ word ∈ r.table.releaseAddr q.hwId,
    word ∉ r.table.handover.released

namespace Roster

variable {r : Roster}

/-- A core that watches a word is started by one of the calls. -/
theorem word_eq_some {hwId : UInt64} {word : PhysAddr} :
    r.word hwId = some word ↔
      (∃ q ∈ r.requests, q.hwId = hwId) ∧ word ∈ r.table.releaseAddr hwId := by
  simp [Roster.word]

/-- A word is watched by one core. -/
theorem Ready.word_inj (h : r.Ready) {a b : UInt64} {word : PhysAddr}
    (ha : r.word a = some word) (hb : r.word b = some word) : a = b := by
  obtain ⟨⟨q, hq, rfl⟩, hword⟩ := word_eq_some.mp ha
  obtain ⟨⟨q', hq', rfl⟩, hword'⟩ := word_eq_some.mp hb
  exact h.apart q hq q' hq' word hword hword'

/-- No core has been released before the first call. -/
theorem Ready.not_released (h : r.Ready) {hwId : UInt64} {word : PhysAddr}
    (hword : r.word hwId = some word) : word ∉ r.table.handover.released := by
  obtain ⟨⟨q, hq, rfl⟩, hmem⟩ := word_eq_some.mp hword
  exact h.parked q hq word hmem

end Roster

/-- Whether a mailbox holds the pair that is not taken yet, or nothing. -/
def Mailbox.Holds (m : Mailbox) : Option Parcel → Prop
  | none => m.isEmpty = true
  | some parcel => m = ⟨parcel.entry, parcel.context⟩ ∧ m.isEmpty = false

/-- A mailbox that is empty holds no pair. -/
theorem Mailbox.Holds.eq_none {m : Mailbox} {waiting : Option Parcel} (h : m.Holds waiting)
    (hempty : m.isEmpty = true) : waiting = none := by
  cases waiting with
  | none => rfl
  | some parcel => simp [h.2] at hempty

/-- What a core's place says, when it watches `word` and `waiting` is not taken yet. -/
structure Parked.Placed (core : Parked) (hwId : UInt64) (word : PhysAddr)
    (released : List PhysAddr) (waiting : Option Parcel) (taken : List Parcel) : Prop where
  /-- it goes nowhere before it is released -/
  isReleased : core ≠ .watching → word ∈ released
  /-- from then on until it has left, its pair is waiting -/
  due : word ∈ released → (∃ entry context, core = .left entry context) ∨
    ∃ entry context, waiting = some ⟨hwId, entry, context⟩
  /-- the context that it has read is that of its pair -/
  takeEntry : ∀ context, core = .takeEntry context → ∃ entry, waiting = some ⟨hwId, entry, context⟩
  /-- so are the entry point and the context, when it has read both -/
  clear : ∀ entry context, core = .clear entry context → waiting = some ⟨hwId, entry, context⟩
  /-- it has left with what it has taken -/
  left : ∀ entry context, core = .left entry context → ⟨hwId, entry, context⟩ ∈ taken

/-- What the place of a start says that serves the call `q`, when `waiting` is not taken yet. -/
structure Start.Placed (s : Start) (r : Roster) (q : StartRequest) (h : Handover)
    (waiting : Option Parcel) : Prop where
  /-- it is the start that the call makes -/
  serves : r.startOf q = .ok { s with step := .awaitEmpty }
  /-- it writes into the mailbox when nothing is waiting -/
  posting : s.step = .postEntry ∨ s.step = .postContext → waiting = none
  /-- the entry point is in the mailbox before the context is -/
  posted : s.step = .postContext → h.mailbox.entry = s.entry
  /-- the pair is waiting before the core is released -/
  releasing : s.step = .writeRelease → waiting = some q.parcel ∧ s.release ∉ h.released

/-- Whether a start is still to complete its pair. -/
def StartStep.isPending : StartStep → Bool
  | .awaitEmpty | .postEntry | .postContext => true
  | .writeRelease | .signal | .finished => false

namespace Park

/-- The calls that are still to complete their pairs. -/
def upcoming (p : Park) : List StartRequest :=
  match p.current with
  | some (q, s) => if s.step.isPending then q :: p.todo else p.todo
  | none => p.todo

/-- What holds between two steps, when `waiting` is the pair that is posted and not yet taken. -/
structure Orderly (r : Roster) (p : Park) (waiting : Option Parcel) : Prop where
  /-- all pairs posted before that are taken -/
  posted_eq : p.posted = p.taken ++ waiting.toList
  /-- it is in the mailbox -/
  holds : p.memory.mailbox.Holds waiting
  /-- pairs are posted in the order of the calls -/
  sublist : (p.posted ++ p.upcoming.map (·.parcel)).Sublist (r.requests.map (·.parcel))
  /-- every core is where it says -/
  core : ∀ hwId word, r.word hwId = some word →
    (p.cores hwId).Placed hwId word p.memory.released waiting p.taken
  /-- so is the start under way -/
  start : ∀ q s, p.current = some (q, s) → s.Placed r q p.memory waiting
  /-- what is taken is what its core has left with -/
  gone : ∀ hwId entry context, ⟨hwId, entry, context⟩ ∈ p.taken →
    p.cores hwId = .left entry context
  /-- a core is released after its pair is posted -/
  released : ∀ hwId word, r.word hwId = some word → word ∈ p.memory.released →
    ∃ parcel ∈ p.posted, parcel.hwId = hwId

end Park

/-- The core of a call watches the word that the call is to write. -/
theorem Start.Placed.word_eq {r : Roster} {q : StartRequest} {s : Start} {h : Handover}
    {waiting : Option Parcel} (hs : s.Placed r q h waiting)
    (hq : q.parcel ∈ r.requests.map (·.parcel)) : r.word q.hwId = some s.release := by
  obtain ⟨q', hq', heq⟩ := List.mem_map.mp hq
  exact Roster.word_eq_some.mpr
    ⟨⟨q', hq', congrArg Parcel.hwId heq⟩, (SpinTable.startFor_ok hs.serves).1⟩

namespace Park.Orderly

variable {r : Roster} {p : Park} {waiting : Option Parcel}

/-- No core gets two pairs. -/
theorem nodup (hready : r.Ready) (h : p.Orderly r waiting) :
    ((p.posted ++ p.upcoming.map (·.parcel)).map (·.hwId)).Nodup := by
  have hdistinct : ((r.requests.map (·.parcel)).map (·.hwId)).Nodup := by
    simpa [Function.comp_def, StartRequest.parcel] using hready.distinct
  exact hdistinct.sublist (h.sublist.map _)

/-- A call that is still to complete its pair has not released its core. -/
theorem not_released (hready : r.Ready) (h : p.Orderly r waiting) {q : StartRequest} {s : Start}
    (hcurrent : p.current = some (q, s)) (hpending : s.step.isPending = true) {word : PhysAddr}
    (hword : r.word q.hwId = some word) : word ∉ p.memory.released := by
  intro hreleased
  obtain ⟨parcel, hposted, hid⟩ := h.released _ _ hword hreleased
  have hnodup := h.nodup hready
  simp only [upcoming, hcurrent, hpending, if_true, List.map_cons, List.map_append] at hnodup
  exact List.disjoint_of_nodup_append hnodup (List.mem_map_of_mem hposted)
    (by simp [hid, StartRequest.parcel])

/-- A call under way is one of the roster's. -/
theorem mem_requests (h : p.Orderly r waiting) {q : StartRequest} {s : Start}
    (hcurrent : p.current = some (q, s))
    (hstep : s.step.isPending = true ∨ s.step = .writeRelease) :
    q.parcel ∈ r.requests.map (·.parcel) := by
  refine h.sublist.subset (List.mem_append.mpr ?_)
  rcases hstep with hpending | hrelease
  · right
    simp [upcoming, hcurrent, hpending]
  · left
    rw [h.posted_eq, ((h.start q s hcurrent).releasing hrelease).1]
    simp

/-! ## Steps of the calls -/

/-- A step of the calls that stores nothing. -/
theorem proceed (h : p.Orderly r waiting) {todo : List StartRequest}
    {current : Option (StartRequest × Start)}
    (answers : List (StartRequest × Except DriverError Unit))
    (hupcoming : (upcoming { p with todo, current, answers }).Sublist p.upcoming)
    (hstart : ∀ q s, current = some (q, s) → s.Placed r q p.memory waiting) :
    ({ p with todo, current, answers } : Park).Orderly r waiting :=
  { h with
    sublist := (List.Sublist.append_left (hupcoming.map _) _).trans h.sublist
    start := hstart }

/-- A call writes the entry point. -/
theorem postEntry (h : p.Orderly r waiting) {q : StartRequest} {s : Start}
    (hcurrent : p.current = some (q, s)) (hstep : s.step = .postEntry) :
    (p.startNext q s).Orderly r waiting := by
  have hs := h.start q s hcurrent
  obtain rfl := hs.posting (.inl hstep)
  simp only [startNext, hstep, Start.next]
  constructor <;> simp only [posted_append, taken_append, Store.filterMap_posted_ofStart,
    Store.filterMap_taken_ofStart, hstep, reduceCtorEq, if_false, List.append_nil]
  case posted_eq => exact h.posted_eq
  case holds => exact h.holds
  case sublist =>
    simpa [upcoming, hcurrent, hstep, StartStep.isPending] using h.sublist
  case core => exact h.core
  case start =>
    rintro q s ⟨⟩
    exact
      { serves := hs.serves
        posting := fun _ => rfl
        posted := fun _ => rfl
        releasing := by simp }
  case gone => exact h.gone
  case released => exact h.released

/-- A call writes the context: now its pair is waiting. -/
theorem postContext (hready : r.Ready) (h : p.Orderly r waiting) {q : StartRequest} {s : Start}
    (hcurrent : p.current = some (q, s)) (hstep : s.step = .postContext) :
    (p.startNext q s).Orderly r (some q.parcel) := by
  have hs := h.start q s hcurrent
  obtain rfl := hs.posting (.inr hstep)
  have hentry : s.entry = q.entry.raw := (SpinTable.startFor_ok hs.serves).2.1
  have hcontext : s.context = q.context := (SpinTable.startFor_ok hs.serves).2.2.1
  have hne : q.context ≠ 0 := (SpinTable.startFor_ok hs.serves).2.2.2.1
  have hpending : s.step.isPending = true := by simp [hstep, StartStep.isPending]
  have hword : r.word q.hwId = some s.release :=
    hs.word_eq (h.mem_requests hcurrent (.inl hpending))
  simp only [startNext, hstep, Start.next]
  constructor <;> simp only [posted_append, taken_append, Store.filterMap_posted_ofStart,
    Store.filterMap_taken_ofStart, hstep, if_true, List.append_nil]
  case posted_eq => simp [h.posted_eq]
  case holds =>
    simp [Mailbox.Holds, Mailbox.isEmpty, StartRequest.parcel, hs.posted hstep, hentry, hcontext,
      hne]
  case sublist =>
    simpa [upcoming, hcurrent, hstep, StartStep.isPending] using h.sublist
  case core =>
    intro hwId word hword
    have hcore := h.core hwId word hword
    exact
      { isReleased := hcore.isReleased
        due := fun hreleased => by
          left
          simpa using hcore.due hreleased
        takeEntry := fun c hc => by simpa using hcore.takeEntry c hc
        clear := fun e c hc => by simpa using hcore.clear e c hc
        left := hcore.left }
  case start =>
    rintro q s ⟨⟩
    exact
      { serves := hs.serves
        posting := by simp
        posted := by simp
        releasing := fun _ => ⟨rfl, h.not_released hready hcurrent hpending hword⟩ }
  case gone => exact h.gone
  case released =>
    intro hwId word hword hreleased
    obtain ⟨parcel, hposted, hid⟩ := h.released hwId word hword hreleased
    exact ⟨parcel, List.mem_append_left _ hposted, hid⟩

/-- A call writes its release word: its core is the one whose pair is waiting. -/
theorem writeRelease (hready : r.Ready) (h : p.Orderly r waiting) {q : StartRequest} {s : Start}
    (hcurrent : p.current = some (q, s)) (hstep : s.step = .writeRelease) :
    (p.startNext q s).Orderly r waiting := by
  have hs := h.start q s hcurrent
  obtain rfl := (hs.releasing hstep).1
  have hq : r.word q.hwId = some s.release :=
    hs.word_eq (h.mem_requests hcurrent (.inr hstep))
  simp only [startNext, hstep, Start.next]
  constructor <;> simp only [posted_append, taken_append, Store.filterMap_posted_ofStart,
    Store.filterMap_taken_ofStart, hstep, reduceCtorEq, if_false, List.append_nil]
  case posted_eq => exact h.posted_eq
  case holds => exact h.holds
  case sublist =>
    simpa [upcoming, hcurrent, hstep, StartStep.isPending] using h.sublist
  case core =>
    intro hwId word hword
    have hcore := h.core hwId word hword
    exact
      { isReleased := fun hne => List.mem_append_left _ (hcore.isReleased hne)
        due := fun hreleased => by
          rcases List.mem_append.mp hreleased with hbefore | hnow
          · exact hcore.due hbefore
          · obtain rfl := List.mem_singleton.mp hnow
            obtain rfl := hready.word_inj hword hq
            exact .inr ⟨_, _, rfl⟩
        takeEntry := hcore.takeEntry
        clear := hcore.clear
        left := hcore.left }
  case start =>
    rintro q s ⟨⟩
    exact { serves := hs.serves, posting := by simp, posted := by simp, releasing := by simp }
  case gone => exact h.gone
  case released =>
    intro hwId word hword hreleased
    rcases List.mem_append.mp hreleased with hbefore | hnow
    · exact h.released hwId word hword hbefore
    · obtain rfl := List.mem_singleton.mp hnow
      obtain rfl := hready.word_inj hword hq
      exact ⟨q.parcel, by simp [h.posted_eq], rfl⟩

/-- What holds between two steps survives the step of a start. -/
theorem startNext (hready : r.Ready) (h : p.Orderly r waiting) {q : StartRequest} {s : Start}
    (hcurrent : p.current = some (q, s)) :
    ∃ waiting', (p.startNext q s).Orderly r waiting' := by
  have hs := h.start q s hcurrent
  cases hstep : s.step with
  | awaitEmpty =>
    refine ⟨waiting, ?_⟩
    simp only [Park.startNext, Start.next, Store.ofStart, hstep, List.append_nil]
    cases hempty : p.memory.mailbox.isEmpty with
    | false =>
      refine h.proceed _ ?_ (by rintro q s ⟨⟩; exact hs)
      simp [upcoming, hcurrent]
    | true =>
      refine h.proceed _ (by simp [upcoming, hcurrent, hstep, StartStep.isPending]) ?_
      rintro q s ⟨⟩
      exact
        { serves := hs.serves
          posting := fun _ => h.holds.eq_none hempty
          posted := by simp
          releasing := by simp }
  | postEntry => exact ⟨_, h.postEntry hcurrent hstep⟩
  | postContext => exact ⟨_, h.postContext hready hcurrent hstep⟩
  | writeRelease => exact ⟨_, h.writeRelease hready hcurrent hstep⟩
  | signal =>
    refine ⟨waiting, ?_⟩
    simp only [Park.startNext, Start.next, Store.ofStart, hstep, List.append_nil]
    refine h.proceed _ (by simp [upcoming, hcurrent, hstep, StartStep.isPending]) ?_
    rintro q s ⟨⟩
    exact { serves := hs.serves, posting := by simp, posted := by simp, releasing := by simp }
  | finished =>
    refine ⟨waiting, ?_⟩
    simp only [Park.startNext, Start.next, Store.ofStart, hstep, List.append_nil]
    refine h.proceed _ (by simp [upcoming, hcurrent]) ?_
    rintro q s ⟨⟩
    exact hs

/-- What holds between two steps survives the step of the calls. -/
theorem callStep {p' : Park} (hready : r.Ready) (h : p.Orderly r waiting)
    (hstep : p.CallStep r p') : ∃ waiting', p'.Orderly r waiting' := by
  cases hstep with
  | idle => exact ⟨waiting, h⟩
  | refuse hcurrent htodo =>
    refine ⟨waiting, h.proceed _ ?_ ?_⟩
    · simp [upcoming, hcurrent, htodo]
    · simp [hcurrent]
  | begin hcurrent htodo hstart =>
    have hstep := (SpinTable.startFor_ok hstart).2.2.2.2
    refine ⟨waiting, h.proceed _ ?_ ?_⟩
    · simp [upcoming, hcurrent, htodo, hstep, StartStep.isPending]
    · rintro q s ⟨⟩
      exact
        { serves := by rw [hstart, ← hstep]
          posting := by simp [hstep]
          posted := by simp [hstep]
          releasing := by simp [hstep] }
  | proceed hcurrent => exact h.startNext hready hcurrent
  | answer hcurrent hstep =>
    refine ⟨waiting, h.proceed _ ?_ (by simp)⟩
    simp [upcoming, hcurrent, hstep, StartStep.isPending]

/-! ## Steps of the cores -/

/-- A step of a core that stores nothing. -/
theorem move (h : p.Orderly r waiting) {hwId : UInt64} {word : PhysAddr}
    (hword : r.word hwId = some word) {core : Parked}
    (hplaced : core.Placed hwId word p.memory.released waiting p.taken)
    (hgone : ∀ entry context, p.cores hwId = .left entry context → core = .left entry context) :
    ({ p with cores := Function.update p.cores hwId core } : Park).Orderly r waiting := by
  refine { h with core := ?_, gone := ?_ }
  · refine (Function.forall_update_iff p.cores (p := fun hwId core => ∀ word,
      r.word hwId = some word → core.Placed hwId word p.memory.released waiting p.taken)).mpr
      ⟨fun word' hword' => ?_, fun other _ => h.core other⟩
    obtain rfl := Option.some.inj (hword.symm.trans hword')
    exact hplaced
  · exact (Function.forall_update_iff p.cores (p := fun hwId core => ∀ entry context,
      ⟨hwId, entry, context⟩ ∈ p.taken → core = .left entry context)).mpr
      ⟨fun e c htaken => hgone e c (h.gone hwId e c htaken), fun other _ => h.gone other⟩

/-- A core empties the mailbox: now nothing is waiting. -/
theorem clear (h : p.Orderly r waiting) {hwId : UInt64} {word : PhysAddr}
    (hword : r.word hwId = some word) {entry context : UInt64}
    (hcore : p.cores hwId = .clear entry context) : (p.parkedNext hwId word).Orderly r none := by
  have hplaced := h.core hwId word hword
  obtain rfl := hplaced.clear entry context hcore
  have hreleased : word ∈ p.memory.released := hplaced.isReleased (by simp [hcore])
  simp only [parkedNext, hcore, Parked.next, Store.ofCore]
  constructor <;> simp only [posted_append, taken_append, List.filterMap_cons, List.filterMap_nil,
    Store.posted?, Store.taken?, List.append_nil]
  case posted_eq => simp [h.posted_eq]
  case holds => simp [Mailbox.Holds, Mailbox.isEmpty]
  case sublist => exact h.sublist
  case core =>
    refine (Function.forall_update_iff p.cores (p := fun hwId core => ∀ word,
      r.word hwId = some word → core.Placed hwId word p.memory.released none _)).mpr
      ⟨fun word' hword' => ?_, fun other hother word' hword' => ?_⟩
    · obtain rfl := Option.some.inj (hword.symm.trans hword')
      exact
        { isReleased := fun _ => hreleased
          due := fun _ => .inl ⟨_, _, rfl⟩
          takeEntry := by simp
          clear := by simp
          left := by
            rintro e c ⟨⟩
            simp }
    · -- the pair that was waiting was not for this core
      have hcore' := h.core other word' hword'
      have hwaiting : ∀ e c, some (⟨hwId, entry, context⟩ : Parcel) ≠ some ⟨other, e, c⟩ := by
        rintro e c ⟨⟩
        exact hother rfl
      exact
        { isReleased := hcore'.isReleased
          due := fun hdue => by simpa [hwaiting] using hcore'.due hdue
          takeEntry := fun c hc => by simpa [hwaiting] using hcore'.takeEntry c hc
          clear := fun e c hc => absurd (hcore'.clear e c hc) (hwaiting e c)
          left := fun e c hc => List.mem_append_left _ (hcore'.left e c hc) }
  case start =>
    intro q s hcurrent
    have hs := h.start q s hcurrent
    refine
      { serves := hs.serves
        posting := fun _ => rfl
        posted := hs.posted
        releasing := fun hstep => ?_ }
    -- a pair is not taken before its core is released
    obtain ⟨hwaiting, hunreleased⟩ := hs.releasing hstep
    have hq : r.word q.hwId = some s.release :=
      hs.word_eq (h.mem_requests hcurrent (.inr hstep))
    obtain rfl : hwId = q.hwId := congrArg Parcel.hwId (Option.some.inj hwaiting)
    obtain rfl := Option.some.inj (hword.symm.trans hq)
    exact absurd hreleased hunreleased
  case gone =>
    refine (Function.forall_update_iff p.cores (p := fun hwId core => ∀ e c,
      ⟨hwId, e, c⟩ ∈ p.taken ++ _ → core = .left e c)).mpr
      ⟨fun e c htaken => ?_, fun other hother e c htaken => ?_⟩
    · rcases List.mem_append.mp htaken with hbefore | hnow
      · simpa [hcore] using h.gone hwId e c hbefore
      · obtain ⟨⟩ := List.mem_singleton.mp hnow
        rfl
    · rcases List.mem_append.mp htaken with hbefore | hnow
      · exact h.gone other e c hbefore
      · obtain ⟨⟩ := List.mem_singleton.mp hnow
        exact absurd rfl hother
  case released => exact h.released

/-- What holds between two steps survives the step of a core. -/
theorem coreStep {p' : Park} {hwId : UInt64} (h : p.Orderly r waiting)
    (hstep : p.CoreStep r hwId p') : ∃ waiting', p'.Orderly r waiting' := by
  cases hstep with
  | absent => exact ⟨waiting, h⟩
  | @proceed word hword =>
    have hplaced := h.core hwId word hword
    cases hcore : p.cores hwId with
    | watching =>
      refine ⟨waiting, ?_⟩
      simp only [parkedNext, hcore, Parked.next, Store.ofCore, List.append_nil]
      refine h.move hword ?_ (by simp [hcore])
      split
      next hreleased =>
        refine
          { isReleased := fun _ => by simpa using hreleased
            due := fun hdue => ?_
            takeEntry := by simp
            clear := by simp
            left := by simp }
        right
        simpa [hcore] using hplaced.due hdue
      next => simpa only [hcore] using hplaced
    | awaitContext =>
      refine ⟨waiting, ?_⟩
      simp only [parkedNext, hcore, Parked.next, Store.ofCore, List.append_nil]
      refine h.move hword ?_ (by simp [hcore])
      have hreleased := hplaced.isReleased (by simp [hcore])
      obtain ⟨entry, context, rfl⟩ : ∃ entry context, waiting = some ⟨hwId, entry, context⟩ := by
        simpa [hcore] using hplaced.due hreleased
      obtain ⟨hmailbox, hfull⟩ := h.holds
      rw [hfull, hmailbox]
      exact
        { isReleased := fun _ => hreleased
          due := fun _ => .inr ⟨_, _, rfl⟩
          takeEntry := by
            rintro c ⟨⟩
            exact ⟨_, rfl⟩
          clear := by simp
          left := by simp }
    | takeEntry context =>
      refine ⟨waiting, ?_⟩
      simp only [parkedNext, hcore, Parked.next, Store.ofCore, List.append_nil]
      refine h.move hword ?_ (by simp [hcore])
      have hreleased := hplaced.isReleased (by simp [hcore])
      obtain ⟨entry, rfl⟩ := hplaced.takeEntry context hcore
      rw [h.holds.1]
      exact
        { isReleased := fun _ => hreleased
          due := fun _ => .inr ⟨_, _, rfl⟩
          takeEntry := by simp
          clear := by
            rintro e c ⟨⟩
            rfl
          left := by simp }
    | clear entry context => exact ⟨none, h.clear hword hcore⟩
    | left entry context =>
      refine ⟨waiting, ?_⟩
      simp only [parkedNext, hcore, Parked.next, Store.ofCore, List.append_nil]
      refine h.move hword ?_ (by simp [hcore])
      simpa only [hcore] using hplaced

/-- What holds between two steps holds before the first. -/
theorem initial (hready : r.Ready) : (Park.initial r).Orderly r none where
  posted_eq := rfl
  holds := hready.isEmpty
  sublist := List.Sublist.refl _
  core _ _ hword :=
    { isReleased := fun hne => absurd rfl hne
      due := fun hreleased => absurd hreleased (hready.not_released hword)
      takeEntry := nofun
      clear := nofun
      left := nofun }
  start := nofun
  gone := nofun
  released _ _ hword hreleased := absurd hreleased (hready.not_released hword)

/-- What holds between two steps survives the step of any party. -/
theorem step (hready : r.Ready) (h : p.Orderly r waiting) (party : Party) :
    ∃ waiting', (p.step r party).Orderly r waiting' := by
  cases party with
  | caller => exact h.callStep hready (p.callStep r)
  | core hwId => exact h.coreStep (p.coreStep r hwId)

/-- What holds between two steps survives a run. -/
theorem run (hready : r.Ready) (h : p.Orderly r waiting) (schedule : List Party) :
    ∃ waiting', (p.run r schedule).Orderly r waiting' := by
  induction schedule generalizing p waiting with
  | nil => exact ⟨waiting, h⟩
  | cons party schedule ih =>
    obtain ⟨_, hstep⟩ := h.step hready party
    exact ih hstep

end Park.Orderly

end BootLoader.Bringup
