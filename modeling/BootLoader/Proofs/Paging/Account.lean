import BootLoader.Proofs.Paging.Steps

/-!
# The account of a builder

The edits that a builder keeps are an exact account of what it did to the storage: the storage is as
the edits leave it, and each of them stays within the frames in use (`Worksite.Leads`). This holds
of every plan that is performed under a frame in use, whether the plan was made for that frame or
not and whether it is performed to the end (`Builder.accounts_apply`). Storage that is reached by
handing out frames and mapping ranges is therefore regular (`Tables.Reachable.regular`).
-/

namespace BootLoader.Paging

variable {F : Format} {n : Nat}

/-- Whether `w'` is `w` after some changes that are all in its account, and within the storage. -/
def Worksite.Leads (w w' : Worksite F n) : Prop :=
  ∃ es, w.tables.ReachesAll es ∧ w'.tables = w.tables.after es ∧ w'.edits = w.edits ++ es.toArray

namespace Worksite.Leads

/-- Nothing has been done yet. -/
theorem refl (w : Worksite F n) : w.Leads w := ⟨[], trivial, rfl, by rw [Array.append_empty]⟩

/-- What has been done before and after. -/
theorem trans {w w' w'' : Worksite F n} (h : w.Leads w') (h' : w'.Leads w'') : w.Leads w'' := by
  obtain ⟨es, hreach, htables, hedits⟩ := h
  obtain ⟨es', hreach', htables', hedits'⟩ := h'
  rw [htables] at hreach' htables'
  refine ⟨es ++ es', Tables.reachesAll_append.mpr ⟨hreach, hreach'⟩, ?_, ?_⟩
  · rw [htables', Tables.after_append]
  · rw [hedits', hedits, Array.append_assoc]
    exact congrArg (w.edits ++ ·) (List.append_toArray es es')

/-- What has been done keeps storage regular, and frames in use. -/
theorem regular {w w' : Worksite F n} (h : w.Leads w') (hw : w.tables.Regular) :
    w'.tables.Regular ∧ w.tables.used ≤ w'.tables.used := by
  obtain ⟨es, hreach, htables, -⟩ := h
  rw [htables]
  exact hreach.after hw

/-- Changes within the storage are in the account. -/
theorem perform (w : Worksite F n) {es : List Edit} (h : w.tables.ReachesAll es) :
    w.Leads (w.perform es) := ⟨es, h, rfl, rfl⟩

end Worksite.Leads

/-- Steps of a builder are in the account. -/
theorem Worksite.Steps.leads {w w' : Worksite F n} (h : w.Steps w') : w.Leads w' := by
  induction h with
  | refl => exact .refl w
  | tail _ hstep ih =>
    rcases hstep.reaches with ⟨log, rfl⟩ | ⟨e, he, rfl⟩
    · exact ih
    · exact ih.trans (.perform _ ⟨he, trivial⟩)

namespace Builder

variable {ε δ α β : Type}

/-- Whether a computation keeps an account of what it does to `w`. -/
def Accounts (b : Builder F n ε α) (w : Worksite F n) : Prop := w.Leads (siteAfter b w)

/-- A computation that leaves the worksite as it is. -/
theorem Accounts.of_eq {b : Builder F n ε α} {w : Worksite F n} (h : siteAfter b w = w) :
    Accounts b w := by
  unfold Accounts
  rw [h]
  exact .refl w

/-- One computation after another. -/
theorem Accounts.bind {x : Builder F n ε α} {f : α → Builder F n ε β} {w : Worksite F n}
    (hx : Accounts x w) (hf : ∀ a w', x w = .ok a w' → w.Leads w' → Accounts (f a) w') :
    Accounts (x >>= f) w :=
  siteAfter_bind (R := Worksite.Leads) .trans hx hf

/-- The same computation with its causes in other terms. -/
theorem Accounts.mapCause {b : Builder F n ε α} {w : Worksite F n} (h : Accounts b w) (f : ε → δ) :
    Accounts (mapCause f b) w := by
  unfold Accounts
  rw [siteAfter_mapCause]
  exact h

/-- Saying something changes no table. -/
theorem accounts_say (r : Journal.Record) (w : Worksite F n) :
    Accounts (say r : Builder F n ε Unit) w := ⟨[], trivial, rfl, by rw [Array.append_empty]; rfl⟩

/-- Whatever is built is in the account. -/
theorem Builds.accounts {b : Builder F n ε α} {w : Worksite F n} (h : Builds b w) : Accounts b w :=
  Worksite.Steps.leads h

/-- Whatever plan is performed under a frame in use, what is done is in the account. -/
theorem accounts_apply {root : FrameId} (p : Plan) {w : Worksite F n} (hw : w.tables.Regular)
    (hroot : root < w.tables.used) : Accounts (apply root p) w :=
  (builds_apply p hw hroot).accounts

end Builder

/-! ## Reachable storage -/

/-- Storage that comes from empty storage by handing out frames, and by making calls and performing
plans under frames in use, whatever they are and whether they succeed. -/
inductive Tables.Reachable : Tables F n → Prop where
  /-- nothing has been done -/
  | empty (base : PhysAddr) : Reachable (.empty F n base)
  /-- a frame is handed out -/
  | allocate {t : Tables F n} (h : Reachable t) (hu : t.used < n) : Reachable t.takeFrame
  /-- a call is made -/
  | call {w : Worksite F n} (h : Reachable w.tables) {root : FrameId} (hr : root < w.tables.used)
    (c : Call) : Reachable (Builder.siteAfter (c.run root) w).tables
  /-- a plan is performed -/
  | perform {w : Worksite F n} (h : Reachable w.tables) {root : FrameId}
    (hr : root < w.tables.used) (p : Plan) :
    Reachable (Builder.siteAfter (Builder.apply root p) w).tables

/-- Reachable storage is regular. -/
theorem Tables.Reachable.regular {t : Tables F n} (h : t.Reachable) : t.Regular := by
  induction h with
  | empty base => exact .empty base
  | allocate h hu ih => exact ih.takeFrame hu
  | call h hr c ih => exact ((Builder.builds_call c ih hr).regular ih).1
  | perform h hr p ih => exact ((Builder.builds_apply p ih hr).regular ih).1

end BootLoader.Paging
