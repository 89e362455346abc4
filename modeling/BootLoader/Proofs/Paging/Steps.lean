import Mathlib.Logic.Relation
import BootLoader.Proofs.Paging.Session

/-!
# The steps of a builder

What a builder does, one thing at a time (`Worksite.Step`): it says something, hands out a frame,
writes a leaf of a tier to a frame in use, or makes an entry point at a later frame in use. Every
plan that is performed under a frame in use is made of such steps, whether the plan was made for
that frame or not and whether it is performed to the end (`Builder.builds_apply`), and so is every
call (`Builder.builds_call`). What each of the steps keeps, as they keep storage regular
(`Worksite.Steps.regular`), is therefore kept by whatever is built.
-/

namespace BootLoader.Paging

variable {F : Format} {n : Nat}

namespace Worksite

/-- One thing that a builder does. -/
inductive Step : Worksite F n → Worksite F n → Prop where
  /-- something is said -/
  | say (w : Worksite F n) (log : Array Journal.Record) : Step w { w with log }
  /-- the next frame is handed out -/
  | allocate (w : Worksite F n) (hu : w.tables.used < n) : Step w (w.perform [.allocate])
  /-- a leaf of a tier is written to a frame in use -/
  | leaf (w : Worksite F n) {frame : FrameId} {index : Nat} {memory : Memory} {base : PhysAddr}
    {tier : Tier} {raw : UInt64} (hf : frame < w.tables.used) (hi : index < F.entries)
    (hleaf : F.leaf memory base tier.level = .ok raw) :
    Step w (w.perform [.write frame index raw])
  /-- an entry of a frame in use is made to point at a later frame in use -/
  | pointer (w : Worksite F n) {frame child : FrameId} {index : Nat} {raw : UInt64}
    (hlt : frame < child) (hchild : child < w.tables.used) (hi : index < F.entries)
    (hpointer : F.pointer (w.tables.frameAddress child) = .ok raw) :
    Step w (w.perform [.write frame index raw])

/-- Any number of steps. -/
abbrev Steps : Worksite F n → Worksite F n → Prop := Relation.ReflTransGen Step

/-- A step changes the log alone, or is one change within the frames in use. -/
theorem Step.reaches {w w' : Worksite F n} (h : w.Step w') :
    (∃ log, w' = { w with log }) ∨ ∃ e, w.tables.Reaches e ∧ w' = w.perform [e] := by
  cases h with
  | say log => exact .inl ⟨log, rfl⟩
  | allocate hu => exact .inr ⟨.allocate, hu, rfl⟩
  | leaf hf hi _ => exact .inr ⟨.write _ _ _, ⟨hf, hi⟩, rfl⟩
  | pointer hlt hchild hi _ => exact .inr ⟨.write _ _ _, ⟨Nat.lt_trans hlt hchild, hi⟩, rfl⟩

/-- A step keeps storage regular, and frames in use. -/
theorem Step.regular {w w' : Worksite F n} (h : w.Step w') (hw : w.tables.Regular) :
    w'.tables.Regular ∧ w.tables.used ≤ w'.tables.used := by
  rcases h.reaches with ⟨log, rfl⟩ | ⟨e, he, rfl⟩
  · exact ⟨hw, Nat.le_refl _⟩
  · exact he.step hw

/-- Steps keep storage regular, and frames in use. -/
theorem Steps.regular {w w' : Worksite F n} (h : w.Steps w') (hw : w.tables.Regular) :
    w'.tables.Regular ∧ w.tables.used ≤ w'.tables.used := by
  induction h with
  | refl => exact ⟨hw, Nat.le_refl _⟩
  | tail _ hstep ih =>
    obtain ⟨hreg, hused⟩ := hstep.regular ih.1
    exact ⟨hreg, Nat.le_trans ih.2 hused⟩

/-- Steps leave the frames where they are. -/
theorem Steps.base_eq {w w' : Worksite F n} (h : w.Steps w') :
    w'.tables.base = w.tables.base := by
  induction h with
  | refl => rfl
  | tail _ hstep ih =>
    rcases hstep.reaches with ⟨log, rfl⟩ | ⟨e, -, rfl⟩
    · exact ih
    · exact (Tables.base_after _ [e]).trans ih

end Worksite

namespace Builder

variable {ε δ α β : Type}

/-- The worksite as a computation leaves it, whether it succeeds or stops. -/
def siteAfter (b : Builder F n ε α) (w : Worksite F n) : Worksite F n :=
  match b w with
  | .ok _ w' => w'
  | .error _ w' => w'

/-- Where a computation that succeeds ends. -/
theorem siteAfter_ok {b : Builder F n ε α} {w w' : Worksite F n} {a : α} (h : b w = .ok a w') :
    siteAfter b w = w' := by
  unfold siteAfter
  rw [h]

/-- Where a computation that stops ends. -/
theorem siteAfter_error {b : Builder F n ε α} {w w' : Worksite F n} {stop : Stop ε}
    (h : b w = .error stop w') : siteAfter b w = w' := by
  unfold siteAfter
  rw [h]

/-- One computation after another does, in any order of worksites, what the first does until it
stops and what both do when it succeeds. -/
theorem siteAfter_bind {R : Worksite F n → Worksite F n → Prop}
    (htrans : ∀ {w w' w''}, R w w' → R w' w'' → R w w'') {x : Builder F n ε α}
    {f : α → Builder F n ε β} {w : Worksite F n} (hx : R w (siteAfter x w))
    (hf : ∀ a w', x w = .ok a w' → R w w' → R w' (siteAfter (f a) w')) :
    R w (siteAfter (x >>= f) w) := by
  cases h : x w with
  | ok a w' =>
    have hsite : siteAfter (x >>= f) w = siteAfter (f a) w' := by
      unfold siteAfter
      rw [bind_ok h]
    rw [siteAfter_ok h] at hx
    rw [hsite]
    exact htrans hx (hf a w' h hx)
  | error stop w' =>
    rw [siteAfter_error h] at hx
    rw [siteAfter_error (bind_error h)]
    exact hx

/-- The same computation with its causes in other terms ends where it ended. -/
theorem siteAfter_mapCause (b : Builder F n ε α) (f : ε → δ) (w : Worksite F n) :
    siteAfter (mapCause f b) w = siteAfter b w := by
  unfold siteAfter mapCause
  cases b w <;> rfl

/-- Whether all that a computation does to `w` is steps of a builder. -/
def Builds (b : Builder F n ε α) (w : Worksite F n) : Prop := w.Steps (siteAfter b w)

namespace Builds

variable {w : Worksite F n}

/-- A computation that stops where it is. -/
theorem of_error {b : Builder F n ε α} {stop : Stop ε} (h : b w = .error stop w) : Builds b w := by
  unfold Builds
  rw [siteAfter_error h]

/-- A value that is given. -/
theorem pure (a : α) : Builds (Pure.pure a : Builder F n ε α) w := .refl

/-- One step. -/
theorem of_step {b : Builder F n ε α} {a : α} {w' : Worksite F n} (h : b w = .ok a w')
    (hstep : w.Step w') : Builds b w := by
  unfold Builds
  rw [siteAfter_ok h]
  exact .single hstep

/-- One computation after another. -/
theorem bind {x : Builder F n ε α} {f : α → Builder F n ε β} (hx : Builds x w)
    (hf : ∀ a w', x w = .ok a w' → w.Steps w' → Builds (f a) w') : Builds (x >>= f) w :=
  siteAfter_bind .trans hx hf

/-- The same computation with its causes in other terms. -/
theorem mapCause {b : Builder F n ε α} (h : Builds b w) (f : ε → δ) :
    Builds (Builder.mapCause f b) w := by
  unfold Builds
  rw [siteAfter_mapCause]
  exact h

/-- A computation that continues with the tables as they are. -/
theorem bind_tables {f : Tables F n → Builder F n ε β} (hf : Builds (f w.tables) w) :
    Builds (tables >>= f) w :=
  hf

/-- A computation that continues when a value is given. -/
theorem bind_ofOutcome {o : Outcome ε α} {f : α → Builder F n ε β}
    (hf : ∀ a, o = .ok a → Builds (f a) w) : Builds (ofOutcome o >>= f) w := by
  cases o with
  | ok a => exact hf a rfl
  | error stop => exact .of_error rfl

/-- A computation that continues when no fault is given. -/
theorem bind_ofFaulting {o : Except Fault α} {f : α → Builder F n ε β}
    (hf : ∀ a, o = .ok a → Builds (f a) w) : Builds (ofFaulting o >>= f) w := by
  cases o with
  | ok a => exact hf a rfl
  | error fault => exact .of_error rfl

end Builds

/-- A frame that is handed out is the first that was not in use. -/
theorem of_allocate_ok {exhausted : ε} {w w' : Worksite F n} {frame : FrameId}
    (hw : w.tables.used ≤ n) (h : allocate exhausted w = .ok frame w') :
    frame = w.tables.used ∧ w' = w.perform [.allocate] := by
  rcases Nat.eq_or_lt_of_le hw with hu | hu
  · cases (allocate_error exhausted hu).symm.trans h
  · cases (allocate_ok exhausted hu).symm.trans h
    exact ⟨rfl, rfl⟩

/-- Handing out a frame is a step, unless all are in use. -/
theorem builds_allocate (exhausted : ε) {w : Worksite F n} (hw : w.tables.used ≤ n) :
    Builds (allocate exhausted) w := by
  rcases Nat.eq_or_lt_of_le hw with hu | hu
  · exact .of_error (allocate_error exhausted hu)
  · exact .of_step (allocate_ok exhausted hu) (.allocate w hu)

/-! ## Performing any plan -/

/-- An entry of a plan is a leaf. -/
theorem leaf_of_leafAt {p : Plan} {step level : Nat} {raw : UInt64}
    (h : p.leafAt F step level = .ok raw) : ∃ base, F.leaf p.memory base level = .ok raw := by
  unfold Plan.leafAt at h
  cases hd : p.distance step with
  | ok d =>
    rw [hd] at h
    exact ⟨_, h⟩
  | error fault =>
    rw [hd] at h
    cases h

/-- The leaves that are written to a frame in use are steps. -/
theorem builds_writeLeaves (p : Plan) (tier : Tier) {frame : FrameId} (first count : Nat)
    {w : Worksite F n} (hw : w.tables.Regular) (hf : frame < w.tables.used) :
    Builds (writeLeaves p frame tier.level first count) w := by
  induction count generalizing first w with
  | zero => exact .pure ()
  | succ count ih =>
    rw [writeLeaves]
    refine .bind_ofFaulting fun va _ => .bind_ofFaulting fun raw hraw => ?_
    obtain ⟨base, hleaf⟩ := leaf_of_leafAt hraw
    have hi := F.index_lt_entries va tier.level
    have hwrite := write_ok (ε := MapError) raw (Nat.lt_of_lt_of_le hf hw.used_le) hi w
    refine (Builds.of_step hwrite (.leaf w hf hi hleaf)).bind fun _ w₁ _ h₁ => ?_
    obtain ⟨hreg, hused⟩ := h₁.regular hw
    exact ih (first + 1) hreg (Nat.lt_of_lt_of_le hf hused)

/-- What is written for one root entry is steps: a missing child comes after the root, because it is
handed out later. -/
theorem builds_writeSlot {root : FrameId} (p : Plan) (va : VirtAddr) (step count : Nat)
    {w : Worksite F n} (hw : w.tables.Regular) (hroot : root < w.tables.used) :
    Builds (writeSlot root p va step count) w := by
  unfold writeSlot
  refine .bind_tables (.bind_ofFaulting fun raw _ => ?_)
  cases F.decode raw 0 with
  | leaf base attrs => exact .of_error rfl
  | next child =>
    refine .bind_tables ?_
    cases hf : w.tables.frameAt child with
    | none => exact .of_error rfl
    | some frame => exact builds_writeLeaves p .intermediate step count hw (Tables.frameAt_lt hf)
  | invalid =>
    refine (builds_allocate _ hw.used_le).bind fun frame w₁ ha h₁ => ?_
    obtain ⟨rfl, rfl⟩ := of_allocate_ok hw.used_le ha
    have hreg₁ := (h₁.regular hw).1
    refine (builds_writeLeaves p .intermediate step count hreg₁ (Nat.lt_succ_self _)).bind
      fun _ w₂ _ h₂ => .bind_tables (.bind_ofFaulting fun raw hpointer => ?_)
    obtain ⟨hreg₂, hused₂⟩ := h₂.regular hreg₁
    -- The new frame is in use, and the root is before it.
    have hchild : w.tables.used < w₂.tables.used := hused₂
    have hi := F.index_lt_entries va 0
    have hrootn : root < n := Nat.lt_of_lt_of_le (Nat.lt_trans hroot hchild) hreg₂.used_le
    exact .of_step (write_ok raw hrootn hi w₂) (.pointer w₂ hroot hchild hi hpointer)

/-- What is written for an intermediate plan is steps. -/
theorem builds_writeSlots {root : FrameId} (p : Plan) (step remaining : Nat)
    {w : Worksite F n} (hw : w.tables.Regular) (hroot : root < w.tables.used) :
    Builds (writeSlots root p step remaining) w := by
  induction remaining using Nat.strongRecOn generalizing step w with
  | ind remaining ih =>
  rw [writeSlots]
  split
  · exact .pure ()
  · split
    · exact .of_error rfl
    · rename_i hpos fault va hva
      -- A visit takes at least one leaf, so the induction is on the leaves that are left.
      have hvisit := F.stepsInSlot_pos va remaining (by omega)
      refine (builds_writeSlot p va step _ hw hroot).bind fun _ w₁ _ h₁ => ?_
      obtain ⟨hreg, hused⟩ := h₁.regular hw
      exact ih _ (by omega) _ hreg (Nat.lt_of_lt_of_le hroot hused)

/-- Whatever plan is performed under a frame in use, what is done is steps. -/
theorem builds_apply {root : FrameId} (p : Plan) {w : Worksite F n} (hw : w.tables.Regular)
    (hroot : root < w.tables.used) : Builds (apply root p) w := by
  unfold apply
  split
  · exact builds_writeLeaves p .top 0 p.steps hw hroot
  · exact builds_writeSlots p 0 p.steps hw hroot

/-- What a call does under a frame in use is steps. -/
theorem builds_call {root : FrameId} (c : Call) {w : Worksite F n} (hw : w.tables.Regular)
    (hroot : root < w.tables.used) : Builds (c.run root) w := by
  have happly : ∀ {w₁ : Worksite F n} (p : Plan), w₁.tables = w.tables →
      Builds (do apply root p; return p) w₁ := by
    intro w₁ p h₁
    rw [← h₁] at hw hroot
    exact (builds_apply p hw hroot).bind fun _ w₂ _ _ => .pure p
  cases c with
  | map virt phys size =>
    refine .bind_tables (.bind_ofOutcome fun p _ => ?_)
    refine (Builds.of_step (say_ok _ w) (.say w _)).bind fun _ w₁ hsay _ => ?_
    cases hsay
    exact happly p rfl
  | mapIdentity start limit =>
    exact .bind_tables (.bind_ofOutcome fun p _ => happly p rfl)
  | mapMemory virt phys size memory =>
    exact .bind_tables (.bind_ofOutcome fun p _ => happly p rfl)

end Builder

end BootLoader.Paging
