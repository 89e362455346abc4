import BootLoader.Proofs.Paging.Translation

/-!
# Sessions

A session is a use of the storage from its empty state on: roots are handed out, and ranges are
mapped under them, in any order and with any outcome (`Session.run`). A call plans and then performs
what it planned, so it either fails before it has changed anything or performs its plan to the end
(`Call.run_cases`). What one request preserves (`Session.Kept.step`) therefore holds after every run
(`Session.kept_run`): the frames in use form a forest.
-/

namespace BootLoader.Paging

variable {F : Format} {n : Nat}

/-- The calls that map a range under a root. -/
inductive Call where
  /-- normal memory, from a virtual to a physical range -/
  | map (virt : VirtAddr) (phys : PhysAddr) (size : UInt64)
  /-- normal memory to itself, rounded outwards -/
  | mapIdentity (start limit : PhysAddr)
  /-- any kind of memory: a plan that is made and then performed -/
  | mapMemory (virt : VirtAddr) (phys : PhysAddr) (size : UInt64) (memory : Memory)
  deriving DecidableEq, Repr

namespace Call

/-- Performs a call for the table in `root`. -/
def run (root : FrameId) : Call → Builder F n MapError Plan
  | map virt phys size => Builder.map root virt phys size
  | mapIdentity start limit => Builder.mapIdentity root start limit
  | mapMemory virt phys size memory => do
    let p ← .ofOutcome ((← Builder.tables).plan root virt phys size memory)
    Builder.apply root p
    return p

/-- The plan of a call. -/
def plan (t : Tables F n) (root : FrameId) : Call → Outcome MapError Plan
  | map virt phys size => t.plan root virt phys size .normal
  | mapIdentity start limit => t.planIdentity root start limit .normal
  | mapMemory virt phys size memory => t.plan root virt phys size memory

/-- Whether a plan is for the range that a call asks for: it starts at the bases of the call, and
ends at the last leaf that intersects its range. -/
def Asks (F : Format) (p : Plan) : Call → Prop
  | map virt phys size | mapMemory virt phys size _ =>
    p.virt = virt ∧ p.phys = phys ∧ p.steps = (size.toNat + (p.granule - 1)) / p.granule
  | mapIdentity start limit =>
    p.phys = start.alignDown (F.levelShift 0) ∧ p.virt = p.phys.identityMapped ∧
      p.phys.toNat + p.span = (limit.alignUp (F.levelShift 0)).toNat

/-- Whether the physical range of a call ends within the address field of an entry. -/
def Fits (F : Format) : Call → Prop
  | map _ phys size | mapMemory _ phys size _ => phys.toNat + size.toNat ≤ F.addressLimit
  | mapIdentity _ limit => limit.toNat ≤ F.addressLimit

instance (F : Format) : (c : Call) → Decidable (c.Fits F)
  | map _ phys size | mapMemory _ phys size _ =>
    inferInstanceAs (Decidable (phys.toNat + size.toNat ≤ F.addressLimit))
  | mapIdentity _ limit => inferInstanceAs (Decidable (limit.toNat ≤ F.addressLimit))

/-- The worksite of a call whose plan has been made: one call says so. -/
def announced (F : Format) (p : Plan) (w : Worksite F n) : Call → Worksite F n
  | map _ _ _ => { w with log := w.log.push (Builder.mapRecord F p) }
  | mapIdentity _ _ | mapMemory _ _ _ _ => w

/-- What has been said is not in the tables. -/
@[simp] theorem tables_announced (p : Plan) (w : Worksite F n) (c : Call) :
    (c.announced F p w).tables = w.tables := by
  cases c <;> rfl

/-- A call without a plan stops where it is. -/
theorem run_error {c : Call} {root : FrameId} {w : Worksite F n} {stop : Stop MapError}
    (h : c.plan w.tables root = .error stop) : c.run root w = .error stop w := by
  cases c with
  | map virt phys size =>
    exact (Builder.bind_ok (Builder.tables_ok w)).trans
      (Builder.bind_error (Builder.ofOutcome_error h w))
  | mapIdentity start limit =>
    exact (Builder.bind_ok (Builder.tables_ok w)).trans
      (Builder.bind_error (Builder.ofOutcome_error h w))
  | mapMemory virt phys size memory =>
    exact (Builder.bind_ok (Builder.tables_ok w)).trans
      (Builder.bind_error (Builder.ofOutcome_error h w))

/-- A call whose plan is performed gives the plan. -/
theorem run_ok {c : Call} {root : FrameId} {w w' : Worksite F n} {p : Plan}
    (h : c.plan w.tables root = .ok p)
    (happly : Builder.apply root p (c.announced F p w) = .ok () w') : c.run root w = .ok p w' := by
  cases c with
  | map virt phys size =>
    exact (Builder.bind_ok (Builder.tables_ok w)).trans
      ((Builder.bind_ok (Builder.ofOutcome_ok h w)).trans
        ((Builder.bind_ok (Builder.say_ok _ w)).trans (Builder.bind_ok happly)))
  | mapIdentity start limit =>
    exact (Builder.bind_ok (Builder.tables_ok w)).trans
      ((Builder.bind_ok (Builder.ofOutcome_ok h w)).trans (Builder.bind_ok happly))
  | mapMemory virt phys size memory =>
    exact (Builder.bind_ok (Builder.tables_ok w)).trans
      ((Builder.bind_ok (Builder.ofOutcome_ok h w)).trans (Builder.bind_ok happly))

variable {low : FrameId} {roots : List FrameId}

/-- A plan that is made for a call can be performed, and is for the range of the call. -/
theorem plan_ok {t : Tables F n} (h : t.Forest low roots) {root : FrameId} (hr : root ∈ roots)
    {c : Call} {p : Plan} (hplan : c.plan t root = .ok p) : t.Affords root p ∧ c.Asks F p := by
  cases c with
  | map virt phys size =>
    obtain ⟨hafford, hvirt, hphys, -, hsteps, -⟩ := h.plan_ok hr hplan
    exact ⟨hafford, hvirt, hphys, hsteps⟩
  | mapIdentity start limit =>
    obtain ⟨hafford, -, -, hphys, hvirt, hend⟩ := h.planIdentity_ok hr hplan
    exact ⟨hafford, hphys, hvirt, hend⟩
  | mapMemory virt phys size memory =>
    obtain ⟨hafford, hvirt, hphys, -, hsteps, -⟩ := h.plan_ok hr hplan
    exact ⟨hafford, hvirt, hphys, hsteps⟩

/-- A plan that is not made for a call is refused. -/
theorem plan_error {t : Tables F n} (h : t.Forest low roots) {root : FrameId} (hr : root ∈ roots)
    {c : Call} {stop : Stop MapError} (hplan : c.plan t root = .error stop) :
    ∃ e, stop = .refused e := by
  cases c with
  | map virt phys size => exact h.plan_error hr hplan
  | mapIdentity start limit => exact h.planIdentity_error hr hplan
  | mapMemory virt phys size memory => exact h.plan_error hr hplan

/-- A call for a root of a forest is refused and changes nothing, or performs its plan to the end and
keeps the forest. -/
theorem run_cases {w : Worksite F n} (h : w.tables.Forest low roots) {root : FrameId}
    (hr : root ∈ roots) (hplaced : F.Placed n w.tables.base) (c : Call) :
    (∃ e, c.run root w = .error (.refused e) w) ∨
    ∃ p es w', c.run root w = .ok p w' ∧ w'.tables = w.tables.after es ∧ p.Sound F ∧ c.Asks F p ∧
      w.tables.Performs root p 0 p.steps es ∧ w'.tables.Forest low roots := by
  cases hplan : c.plan w.tables root with
  | error stop =>
    obtain ⟨e, rfl⟩ := plan_error h hr hplan
    exact .inl ⟨e, run_error hplan⟩
  | ok p =>
    -- What a call says before it performs its plan is not in the tables.
    obtain ⟨hafford, hasks⟩ := plan_ok h hr hplan
    have htables := tables_announced p w c
    obtain ⟨es, happly, hperforms, hforest, -⟩ :=
      Builder.apply_ok (w := c.announced F p w) (htables.symm ▸ h) hr
        (fun _ => htables.symm ▸ hplaced) hafford.sound
        (fun j hj => htables.symm ▸ (hafford.admits j hj).hasPlace h.regular)
        (htables.symm ▸ hafford.room)
    rw [htables] at hperforms hforest
    have htables' : ((c.announced F p w).perform es).tables = w.tables.after es := by
      rw [Worksite.tables_perform, htables]
    exact .inr ⟨p, es, _, run_ok hplan happly, htables', hafford.sound, hasks, hperforms,
      htables'.symm ▸ hforest⟩

end Call

/-! ## Requests -/

/-- What is asked of the storage. -/
inductive Request where
  /-- a frame for a new root -/
  | addRoot
  /-- a mapping under a root -/
  | call (root : FrameId) (c : Call)
  deriving DecidableEq, Repr

/-- Whether the physical range of a request ends within the address field of an entry. -/
def Request.Fits (F : Format) : Request → Prop
  | addRoot => True
  | call _ c => c.Fits F

instance (F : Format) : (r : Request) → Decidable (r.Fits F)
  | .addRoot => inferInstanceAs (Decidable True)
  | .call _ c => inferInstanceAs (Decidable (c.Fits F))

/-- Storage in use, and what has been asked of it. -/
structure Session (F : Format) (n : Nat) where
  /-- the storage -/
  site : Worksite F n
  /-- the roots that have been handed out, oldest first -/
  roots : List FrameId
  /-- the plans that have been performed, oldest first, each with its root -/
  made : List (FrameId × Plan)

namespace Session

/-- The tables of a session. -/
def tables (s : Session F n) : Tables F n := s.site.tables

/-- A session of empty storage at `base`. -/
def start (F : Format) (n : Nat) (base : PhysAddr) : Session F n where
  site := { tables := .empty F n base }
  roots := []
  made := []

/-- The session after one request; whether it succeeds or fails, the storage is as it leaves it.
Calls are made for roots only. -/
def step (s : Session F n) : Request → Session F n
  | .addRoot =>
    match (Builder.allocate .storageExhausted : Builder F n MapError FrameId) s.site with
    | .ok root site => { s with site, roots := s.roots ++ [root] }
    | .error _ site => { s with site }
  | .call root c =>
    if root ∈ s.roots then
      match c.run root s.site with
      | .ok p site => { s with site, made := s.made ++ [(root, p)] }
      | .error _ site => { s with site }
    else s

/-- The session after the requests `rs`, oldest first. -/
def steps (s : Session F n) (rs : List Request) : Session F n := rs.foldl step s

/-- The session after the requests `rs` to empty storage at `base`. -/
def run (F : Format) (n : Nat) (base : PhysAddr) (rs : List Request) : Session F n :=
  (start F n base).steps rs

/-- What every request preserves: the frames stay where they are, and those in use form a forest. -/
structure Kept (base : PhysAddr) (s : Session F n) : Prop where
  /-- the frames are at `base` -/
  base_eq : s.tables.base = base
  /-- the roots and their children are all the frames in use -/
  forest : s.tables.Forest 0 s.roots

/-- A root is handed out while there are frames. -/
theorem step_addRoot (s : Session F n) (hu : s.tables.used < n) :
    s.step .addRoot =
      { s with site := s.site.perform [.allocate], roots := s.roots ++ [s.tables.used] } := by
  unfold step
  rw [Builder.allocate_ok _ hu]
  rfl

/-- No root is handed out when all frames are in use. -/
theorem step_addRoot_full (s : Session F n) (hu : s.tables.used = n) : s.step .addRoot = s := by
  have hfull : s.site.tables.allocate = none := Tables.allocate_eq_none _ hu
  unfold step Builder.allocate
  simp only [hfull]

/-- A request keeps the forest. -/
theorem Kept.step {base : PhysAddr} (hplaced : F.Placed n base) {s : Session F n}
    (h : s.Kept base) (r : Request) : (s.step r).Kept base := by
  obtain ⟨hbase, hforest⟩ := h
  cases r with
  | addRoot =>
    rcases Nat.eq_or_lt_of_le hforest.regular.used_le with hu | hu
    · rw [step_addRoot_full s hu]
      exact ⟨hbase, hforest⟩
    · rw [step_addRoot s hu]
      exact ⟨hbase, hforest.addRoot (Nat.zero_le _) hu⟩
  | call root c =>
    unfold Session.step
    -- A request for a frame that is no root is not made.
    by_cases hr : root ∈ s.roots
    · simp only [if_pos hr]
      rcases Call.run_cases hforest hr (hbase.symm ▸ hplaced) c with
        ⟨e, hrun⟩ | ⟨p, es, w', hrun, htables, -, -, -, hforest'⟩
      · simp only [show c.run root s.site = _ from hrun]
        exact ⟨hbase, hforest⟩
      · simp only [show c.run root s.site = _ from hrun]
        refine ⟨?_, hforest'⟩
        show w'.tables.base = base
        rw [htables, Tables.base_after]
        exact hbase
    · simp only [if_neg hr]
      exact ⟨hbase, hforest⟩

/-- Requests keep the forest. -/
theorem Kept.steps {base : PhysAddr} (hplaced : F.Placed n base) {s : Session F n}
    (h : s.Kept base) (rs : List Request) : (s.steps rs).Kept base := by
  induction rs generalizing s with
  | nil => exact h
  | cons r rs ih => exact ih (h.step hplaced r)

/-- Every run of requests to empty storage keeps the forest. -/
theorem kept_run {base : PhysAddr} (hplaced : F.Placed n base) (rs : List Request) :
    (run F n base rs).Kept base := by
  have hstart : (start F n base).Kept base :=
    ⟨rfl, Tables.Forest.ofRegular (Tables.Regular.empty base)⟩
  exact hstart.steps hplaced rs

/-- The structure of the storage after every run, whatever is asked and whatever of it fails: frames
that are not in use are clear; an entry of a root is empty, a leaf, or a pointer at a frame in use
that is no root; any other frame in use is the child of exactly one entry of one root, and holds
leaves, at least one, and empty entries only. No entry that is not empty is invalid, and every walk
from a root ends at a leaf or at an empty entry of the root or of one child. -/
theorem forest_run {base : PhysAddr} (hplaced : F.Placed n base) (rs : List Request) :
    let s := run F n base rs
    let t := s.tables
    t.used ≤ n ∧
    (∀ f, t.used ≤ f → ∀ i, t.entryAt f i = 0) ∧
    (∀ r ∈ s.roots, r < t.used ∧ ∀ i, t.entryAt r i = 0 ∨ F.IsLeaf (t.entryAt r i) 0 ∨
      ∃ c, t.childAt r i = some c ∧ c < t.used ∧ c ∉ s.roots) ∧
    (∀ c, c < t.used → c ∉ s.roots →
      (∃! e : FrameId × Nat, e.1 ∈ s.roots ∧ t.childAt e.1 e.2 = some c) ∧
      (∀ i, t.entryAt c i = 0 ∨ F.IsLeaf (t.entryAt c i) 1) ∧ ∃ i, F.IsLeaf (t.entryAt c i) 1) ∧
    (∀ f i, t.entryAt f i ≠ 0 →
      F.decode (t.entryAt f i) (if f ∈ s.roots then 0 else 1) ≠ .invalid) ∧
    ∀ r ∈ s.roots, ∀ va, ∃ found, t.WalkEnds r va found ∧ t.translate r va = .ok found := by
  intro s t
  have hforest : t.Forest 0 s.roots := (kept_run hplaced rs).forest
  refine ⟨hforest.regular.used_le, hforest.regular.free_zero, ?_, ?_, ?_, ?_⟩
  · intro r hr
    refine ⟨(hforest.root_mem r hr).2, fun i => ?_⟩
    rcases hforest.root_entry r hr i with hz | hl | ⟨c, hc, -, hroot⟩
    · exact .inl hz
    · exact .inr (.inl hl)
    · exact .inr (.inr ⟨c, hc, Tables.childAt_lt hc, hroot⟩)
  · intro c hc hroot
    exact ⟨hforest.existsUnique_parent (Nat.zero_le c) hc hroot,
      hforest.child_entry c (Nat.zero_le c) hc hroot, hforest.child_leaf c (Nat.zero_le c) hc hroot⟩
  · exact fun f i hne => hforest.decode_ne_invalid (Nat.zero_le f) hne
  · intro r hr va
    obtain ⟨found, hw⟩ := hforest.walkEnds hr va
    exact ⟨found, hw, hforest.translate_eq hr hw⟩

/-- Two frames for the other format: a root, a range in the intermediate tier, and the same range to
another place, which is refused. -/
theorem forest_run_aarch64 :
    let base : PhysAddr := ⟨0x40080000⟩
    let rs : List Request := [.addRoot,
      .call 0 (.map ⟨0xffffff8000200000⟩ ⟨0x40200000⟩ 0x400000),
      .call 0 (.mapMemory ⟨0xffffff8000200000⟩ ⟨0x80000000⟩ 0x200000 .device)]
    let s := run .aarch64 2 base rs
    Format.Placed .aarch64 2 base ∧ s.tables.used ≤ 2 ∧
      ∀ r ∈ s.roots, ∀ va, ∃ found, s.tables.WalkEnds r va found := by
  have hplaced : Format.Placed .aarch64 2 ⟨0x40080000⟩ := ⟨by decide, by decide⟩
  obtain ⟨hused, -, -, -, -, hwalk⟩ := forest_run hplaced [.addRoot,
    .call 0 (.map ⟨0xffffff8000200000⟩ ⟨0x40200000⟩ 0x400000),
    .call 0 (.mapMemory ⟨0xffffff8000200000⟩ ⟨0x80000000⟩ 0x200000 .device)]
  refine ⟨hplaced, hused, fun r hr va => ?_⟩
  obtain ⟨found, hw, -⟩ := hwalk r hr va
  exact ⟨found, hw⟩

end Session

end BootLoader.Paging
