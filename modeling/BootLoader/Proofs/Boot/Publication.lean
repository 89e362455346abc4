import BootLoader.Boot.Context
import BootLoader.Proofs.Paging.Edits

/-!
# The plan is published once

A boot may be prepared by any number of calls, each with images, a footprint and a device tree of
its own. Calls that fail may leave tables behind that they have begun. The first call that succeeds
publishes its plan, and from then on nothing changes any more: later calls do not even ask for
images. So what that call has made sure of still holds of the tables
(`Context.publishes_afterCalls`).
-/

namespace BootLoader.Boot

open Paging (AddressSpace Builder Footprint Format Tables Worksite)

variable {F : Format} {frames room : Nat}

/-- A call to prepare a boot. -/
structure Preparation where
  /-- the images, or why there are none -/
  source : ImageSource
  /-- the memory of the loader -/
  footprint : Footprint
  /-- an address of the loader's code -/
  pc : PhysAddr
  /-- where the device tree is -/
  tree : TreeLocation

namespace Context

/-- The call `p`. -/
def call (c : Context F frames room) (p : Preparation) :
    Step (Outcome BootError Plan) (Context F frames room) :=
  c.prepare p.source p.footprint p.pc p.tree

/-- The context after one call and another. -/
def afterCalls (c : Context F frames room) (ps : List Preparation) : Context F frames room :=
  ps.foldl (fun c p => (c.call p).memory) c

/-! ## What a call does -/

/-- Saying one thing after another changes no table. -/
theorem tables_forIn_say {α : Type} (record : α → Journal.Record) (lines : List α)
    {w w' : Worksite F frames} (h : (forIn lines PUnit.unit (fun line _ => do
      Builder.say (record line)
      pure (ForInStep.yield PUnit.unit)) : Builder F frames BootError PUnit) w = .ok ⟨⟩ w') :
    w'.tables = w.tables := by
  induction lines generalizing w with
  | nil =>
    cases h
    rfl
  | cons line lines ih =>
    rw [List.forIn_cons, bind_assoc, Builder.bind_ok (Builder.say_ok _ w), pure_bind] at h
    simpa using ih h

/-- Listing a table changes none. -/
theorem tables_sayListing {root : Paging.FrameId} {w w' : Worksite F frames}
    (h : sayListing root w = .ok () w') : w'.tables = w.tables := by
  unfold sayListing at h
  rw [Builder.bind_ok (Builder.tables_ok w)] at h
  obtain ⟨lines, w₁, hlines, hrest⟩ := Builder.of_bind_ok h
  have hw₁ : w₁ = w := (Builder.of_ofOutcome_ok hlines).2
  obtain ⟨⟨⟩, w₂, hsaid, hdone⟩ := Builder.of_bind_ok hrest
  cases hdone
  rw [tables_forIn_say _ lines hsaid, hw₁]

/-- The address space that is built maps the code of the loader at `pc` to itself. -/
theorem build_ok {kernel : Region} {footprint : Footprint} {pc : PhysAddr}
    {w w' : Worksite F frames} {space : AddressSpace}
    (h : build kernel footprint pc w = .ok space w') :
    w'.tables.translate space.selfMap pc.identityMapped = .ok (some pc) := by
  unfold build at h
  obtain ⟨built, w₁, -, hafter⟩ := Builder.of_bind_ok h
  rw [Builder.bind_ok (Builder.tables_ok w₁)] at hafter
  obtain ⟨⟨⟩, w₂, hcheck, hlisted⟩ := Builder.of_bind_ok hafter
  obtain ⟨hpc, hw₂⟩ := Builder.of_ofOutcome_ok hcheck
  obtain ⟨⟨⟩, w₃, hself, hkernel⟩ := Builder.of_bind_ok hlisted
  have hw₃ : w₃.tables = w₁.tables := (tables_sayListing hself).trans (by rw [hw₂])
  -- what is said after the check changes no table
  have hend : space = built ∧ w'.tables = w₁.tables := by
    dsimp only at hkernel
    split at hkernel
    next =>
      obtain ⟨⟨⟩, w₄, hsecond, hsaid⟩ := Builder.of_bind_ok hkernel
      cases hsaid
      exact ⟨rfl, (tables_sayListing hsecond).trans hw₃⟩
    next =>
      cases hkernel
      exact ⟨rfl, hw₃⟩
  rw [hend.1, hend.2]
  unfold AddressSpace.check at hpc
  split at hpc
  next => cases hpc
  next found htranslate =>
    split at hpc
    next hfound => rw [htranslate, hfound]
    next => cases hpc

/-- What a call gives, and what it does. -/
inductive Answer (c : Context F frames room) (p : Preparation) :
    Step (Outcome BootError Plan) (Context F frames room) → Prop where
  /-- there is a plan already -/
  | known {plan : Plan} (hplan : c.plan = some plan) :
      Answer c p { value := .ok plan, memory := c }
  /-- there are no images, or they are not what a boot needs -/
  | refused {e : BootError} {said : List Action} (hplan : c.plan = none)
      (himages : checkedImages p.source = .error e) :
      Answer c p { value := .refuse e, memory := c, actions := .load :: said }
  /-- the address space is not built -/
  | stopped {images : LoadedImages} {stop : Stop BootError} {tables : Tables F frames}
      {said : List Action} (hplan : c.plan = none) (himages : checkedImages p.source = .ok images) :
      Answer c p
        { value := .error stop
          memory := { c with tables, plan := none }
          actions := .load :: said }
  /-- the plan is published -/
  | published {images : LoadedImages} {space : AddressSpace} {tables : Tables F frames}
      {said : List Action} (hplan : c.plan = none) (himages : checkedImages p.source = .ok images)
      (hpc : tables.translate space.selfMap p.pc.identityMapped = .ok (some p.pc)) :
      Answer c p
        { value := .ok { images, space, root := space.rootPair tables, tree := p.tree }
          memory :=
            { c with
              tables
              plan := some { images, space, root := space.rootPair tables, tree := p.tree } }
          actions := .load :: said }

/-- A call is answered in one of these ways. -/
theorem answer (c : Context F frames room) (p : Preparation) : Answer c p (c.call p) := by
  unfold call prepare
  cases hplan : c.plan with
  | some plan => exact .known hplan
  | none =>
    dsimp only
    cases himages : checkedImages p.source with
    | error e => exact .refused hplan himages
    | ok images =>
      dsimp only
      cases hbuild : build images.kernel p.footprint p.pc { tables := c.tables } with
      | error stop w => exact .stopped hplan himages
      | ok space w => exact .published hplan himages (build_ok hbuild)

/-- Images that are accepted are given, and are what a boot needs. -/
theorem of_checkedImages_ok {source : ImageSource} {images : LoadedImages}
    (h : checkedImages source = .ok images) :
    source.result = .ok images ∧ images.check = .ok () := by
  unfold checkedImages at h
  cases hresult : source.result with
  | error e => simp [hresult, bind, Except.bind] at h
  | ok found =>
    cases hcheck : found.check with
    | error e => simp [hresult, hcheck, bind, Except.bind] at h
    | ok => simp_all [bind, Except.bind, pure, Except.pure]

/-- Images that are not given, or are not what a boot needs, are refused. -/
theorem checkedImages_error {source : ImageSource} {e : BootError}
    (h : source.result = .error e ∨
      ∃ images, source.result = .ok images ∧ images.check = .error e) :
    checkedImages source = .error e := by
  unfold checkedImages
  rcases h with hresult | ⟨images, hresult, hcheck⟩
  · simp [hresult, bind, Except.bind]
  · simp [hresult, hcheck, bind, Except.bind]

namespace Answer

variable {c : Context F frames room} {p : Preparation}
  {step : Step (Outcome BootError Plan) (Context F frames room)}

/-- No call touches the barrier. -/
theorem barrier_eq (h : c.Answer p step) : step.memory.barrier = c.barrier := by
  cases h <;> rfl

/-- With a plan, a call gives that plan and does nothing. -/
theorem eq_known (h : c.Answer p step) {plan : Plan} (hplan : c.plan = some plan) :
    step = { value := .ok plan, memory := c } := by
  cases h with
  | known hknown => rw [Option.some.inj (hplan.symm.trans hknown)]
  | refused hnone => simp [hnone] at hplan
  | stopped hnone => simp [hnone] at hplan
  | published hnone => simp [hnone] at hplan

/-- Without a plan, a call that succeeds publishes one, and any other leaves none. -/
theorem cases_none (h : c.Answer p step) (hplan : c.plan = none) :
    (step.memory.plan = none ∧ ∀ plan, step.value ≠ .ok plan) ∨
      ∃ plan, step.memory.plan = some plan ∧ step.value = .ok plan := by
  cases h with
  | known hknown => simp [hplan] at hknown
  | refused => exact .inl ⟨hplan, nofun⟩
  | stopped => exact .inl ⟨rfl, nofun⟩
  | published => exact .inr ⟨_, rfl, rfl⟩

/-- A call that succeeds leaves the plan that it succeeds with. -/
theorem published_iff (h : c.Answer p step) {plan : Plan} :
    step.value = .ok plan ↔ step.memory.plan = some plan := by
  cases h with
  | known hplan => simp [hplan]
  | refused hplan => simp [Outcome.refuse, hplan]
  | stopped => simp
  | published => simp

/-- A call whose images are refused changes nothing. -/
theorem eq_refused (h : c.Answer p step) {e : BootError}
    (himages : checkedImages p.source = .error e) :
    step.memory = c ∧ (c.plan = none → step.value = .refuse e) := by
  cases h with
  | known hplan => exact ⟨rfl, by simp [hplan]⟩
  | refused _ hother =>
    obtain rfl := Except.error.inj (hother.symm.trans himages)
    exact ⟨rfl, fun _ => rfl⟩
  | stopped _ hother => simp [hother] at himages
  | published _ hother => simp [hother] at himages

/-- What the call that publishes a plan has made sure of. -/
theorem of_published (h : c.Answer p step) (hplan : c.plan = none) {plan : Plan}
    (hvalue : step.value = .ok plan) :
    p.source.result = .ok plan.images ∧ plan.images.check = .ok () ∧
      plan.root = plan.space.rootPair step.memory.tables ∧
      step.memory.tables.translate plan.space.selfMap p.pc.identityMapped = .ok (some p.pc) := by
  cases h with
  | known hknown => simp [hplan] at hknown
  | refused => cases hvalue
  | stopped => cases hvalue
  | published _ himages hpc =>
    cases hvalue
    exact ⟨(of_checkedImages_ok himages).1, (of_checkedImages_ok himages).2, rfl, hpc⟩

end Answer

/-! ## What calls do -/

/-- Calls after the plan is published change nothing. -/
theorem afterCalls_of_plan {c : Context F frames room} {plan : Plan} (h : c.plan = some plan)
    (ps : List Preparation) : c.afterCalls ps = c := by
  induction ps with
  | nil => rfl
  | cons p ps ih =>
    have hcall : (c.call p).memory = c := by rw [(c.answer p).eq_known h]
    rw [afterCalls, List.foldl_cons, hcall]
    exact ih

/-- No call touches the barrier. -/
theorem barrier_afterCalls (c : Context F frames room) (ps : List Preparation) :
    (c.afterCalls ps).barrier = c.barrier := by
  induction ps generalizing c with
  | nil => rfl
  | cons p ps ih =>
    exact (ih (c.call p).memory).trans (c.answer p).barrier_eq

/-- The first of some calls that succeeds decides how the context is after all of them. -/
theorem afterCalls_cases {c : Context F frames room} (hplan : c.plan = none)
    (ps : List Preparation) :
    ((c.afterCalls ps).plan = none ∧ ∀ before p after, ps = before ++ p :: after →
        ∀ plan, ((c.afterCalls before).call p).value ≠ .ok plan) ∨
      ∃ before p after plan, ps = before ++ p :: after ∧ (c.afterCalls before).plan = none ∧
        ((c.afterCalls before).call p).value = .ok plan ∧
        (c.afterCalls ps).plan = some plan ∧
        c.afterCalls ps = ((c.afterCalls before).call p).memory := by
  induction ps generalizing c with
  | nil => exact .inl ⟨hplan, fun before p after h => by simp at h⟩
  | cons p ps ih =>
    rcases (c.answer p).cases_none hplan with ⟨hnone, hfailed⟩ | ⟨plan, hsome, hok⟩
    · -- the calls after one that fails start with what it leaves
      rcases ih hnone with ⟨hend, hall⟩ | ⟨before, q, after, plan, hsplit, hrest⟩
      · refine .inl ⟨hend, fun before q after hsplit => ?_⟩
        cases before with
        | nil =>
          obtain ⟨rfl, rfl⟩ : p = q ∧ ps = after := by simpa using hsplit
          exact hfailed
        | cons p' before =>
          obtain ⟨rfl, htail⟩ : p = p' ∧ ps = before ++ q :: after := by simpa using hsplit
          exact hall before q after htail
      · exact .inr ⟨p :: before, q, after, plan, by rw [hsplit, List.cons_append], hrest⟩
    · have hend : c.afterCalls (p :: ps) = (c.call p).memory := afterCalls_of_plan hsome ps
      exact .inr ⟨[], p, ps, plan, rfl, hplan, hok, by rw [hend]; exact hsome, hend⟩

/-- There is a plan after some calls exactly when one of them has succeeded. -/
theorem afterCalls_plan_eq_none_iff {c : Context F frames room} (hplan : c.plan = none)
    (ps : List Preparation) :
    (c.afterCalls ps).plan = none ↔ ∀ before p after, ps = before ++ p :: after →
      ∀ plan, ((c.afterCalls before).call p).value ≠ .ok plan := by
  rcases afterCalls_cases hplan ps with
    ⟨hnone, hall⟩ | ⟨before, p, after, first, hsplit, -, hok, hsome, -⟩
  · exact iff_of_true hnone hall
  · exact iff_of_false (by simp [hsome]) fun hall => hall before p after hsplit first hok

/-- A plan that is there after some calls was published by the first that succeeded, and what that
call has made sure of still holds, as nothing has changed since. -/
theorem of_afterCalls_plan {c : Context F frames room} (hplan : c.plan = none)
    {ps : List Preparation} {plan : Plan} (h : (c.afterCalls ps).plan = some plan) :
    ∃ before p after, ps = before ++ p :: after ∧ (c.afterCalls before).plan = none ∧
      ((c.afterCalls before).call p).value = .ok plan ∧ p.source.result = .ok plan.images ∧
      plan.images.check = .ok () ∧ plan.root = plan.space.rootPair (c.afterCalls ps).tables ∧
      (c.afterCalls ps).tables.translate plan.space.selfMap p.pc.identityMapped =
        .ok (some p.pc) := by
  rcases afterCalls_cases hplan ps with
    ⟨hnone, -⟩ | ⟨before, p, after, first, hsplit, hnone, hok, hsome, hend⟩
  · simp [hnone] at h
  · obtain rfl := Option.some.inj (hsome.symm.trans h)
    have hpublished := (answer _ p).of_published hnone hok
    rw [← hend] at hpublished
    exact ⟨before, p, after, hsplit, hnone, hok, hpublished⟩

/-! ## Publication -/

/-- What preparing a boot amounts to: what holds of the context `c` after the calls `ps`, of the
call `next` that is made then, and of all calls after it. -/
structure Publishes (start c : Context F frames room) (ps : List Preparation)
    (next : Preparation) : Prop where
  /-- there is no plan as long as no call has succeeded -/
  absent : c.plan = none ↔ ∀ before p after, ps = before ++ p :: after →
    ∀ plan, ((start.afterCalls before).call p).value ≠ .ok plan
  /-- a call that succeeds with a plan leaves that plan, and no other call leaves one -/
  published : ∀ plan, (c.call next).value = .ok plan ↔ (c.call next).memory.plan = some plan
  /-- with a plan, every call gives that plan and does nothing, so it asks for no images -/
  known : ∀ plan, c.plan = some plan → c.call next = { value := .ok plan, memory := c }
  /-- with a plan, nothing changes any more -/
  kept : ∀ plan, c.plan = some plan → ∀ later, c.afterCalls later = c
  /-- without images that are what a boot needs, a call changes nothing -/
  refused : ∀ e, next.source.result = .error e ∨
    (∃ images, next.source.result = .ok images ∧ images.check = .error e) →
      (c.call next).memory = c ∧ (c.plan = none → (c.call next).value = .refuse e)
  /-- the images of a plan are what a boot needs -/
  images : ∀ plan, c.plan = some plan → plan.images.check = .ok ()
  /-- the roots of a plan are those of its address space -/
  roots : ∀ plan, c.plan = some plan →
    plan.root.selfMap = c.tables.frameAddress plan.space.selfMap ∧
      plan.root.kernelMap = c.tables.frameAddress plan.space.kernelMap
  /-- a plan is that of the first call that succeeded, whose code is still mapped to itself -/
  origin : ∀ plan, c.plan = some plan → ∃ before p after, ps = before ++ p :: after ∧
    (start.afterCalls before).plan = none ∧
    ((start.afterCalls before).call p).value = .ok plan ∧ p.source.result = .ok plan.images ∧
    c.tables.translate plan.space.selfMap p.pc.identityMapped = .ok (some p.pc)
  /-- no call touches the barrier, which stays closed -/
  closed : (c.call next).memory.barrier = start.barrier ∧
    (c.call next).memory.barrier.go = false

/-- However often a boot is prepared, and whatever its images are each time: the first call that
succeeds publishes its plan, whose images are accepted and whose self-map still maps the code of the
loader to itself, and nothing changes any more after it. -/
theorem publishes_afterCalls (base : PhysAddr) (ps : List Preparation) (next : Preparation) :
    Publishes (initial F frames room base) ((initial F frames room base).afterCalls ps) ps next := by
  have habsent := afterCalls_plan_eq_none_iff (c := initial F frames room base) rfl ps
  have hsound := fun (plan : Plan)
    (h : ((initial F frames room base).afterCalls ps).plan = some plan) => of_afterCalls_plan rfl h
  have hbarrier := barrier_afterCalls (initial F frames room base) ps
  generalize (initial F frames room base).afterCalls ps = c at habsent hsound hbarrier ⊢
  have hanswer := c.answer next
  exact
    { absent := habsent
      published := fun plan => hanswer.published_iff
      known := fun plan hplan => hanswer.eq_known hplan
      kept := fun plan hplan later => afterCalls_of_plan hplan later
      refused := fun e he => hanswer.eq_refused (checkedImages_error he)
      images := fun plan hplan => by
        obtain ⟨_, _, _, -, -, -, -, hcheck, -⟩ := hsound plan hplan
        exact hcheck
      roots := fun plan hplan => by
        obtain ⟨_, _, _, -, -, -, -, -, hroot, -⟩ := hsound plan hplan
        rw [hroot]
        exact ⟨rfl, rfl⟩
      origin := fun plan hplan => by
        obtain ⟨before, p, after, hsplit, hnone, hok, hsource, -, -, hpc⟩ := hsound plan hplan
        exact ⟨before, p, after, hsplit, hnone, hok, hsource, hpc⟩
      closed := by
        rw [hanswer.barrier_eq, hbarrier]
        exact ⟨rfl, rfl⟩ }

end Context

end BootLoader.Boot
