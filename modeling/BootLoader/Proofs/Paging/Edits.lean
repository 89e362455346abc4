import BootLoader.Paging.Build
import BootLoader.Proofs.Paging.Storage

/-!
# Changes that replace nothing

A builder keeps the list of its edits. `Tables.AcceptsAll` says of such a list that it is carried
out within the frames in use and that none of its writes replaces an entry by a different one. Under
such a list storage only grows: what was in an entry stays (`AcceptsAll.extends`), what is written
stays (`AcceptsAll.entryAt_of_mem`), and an entry that differs in the end has been written
(`AcceptsAll.mem_of_entryAt_ne`). `Builder.write` and `Builder.allocate` are then single edits.
-/

namespace BootLoader.Paging

variable {F : Format} {n : Nat}

namespace Tables

/-- The storage after the changes `es`, oldest first. -/
def after (t : Tables F n) (es : List Edit) : Tables F n := es.foldl Tables.edit t

@[simp] theorem after_nil (t : Tables F n) : t.after [] = t := rfl

@[simp] theorem after_cons (t : Tables F n) (e : Edit) (es : List Edit) :
    t.after (e :: es) = (t.edit e).after es := rfl

@[simp] theorem after_append (t : Tables F n) (es es' : List Edit) :
    t.after (es ++ es') = (t.after es).after es' := List.foldl_append

/-- Whether a change replaces nothing: there is a frame to hand out, or the entry to write is in a
frame in use and holds zero or what is written. -/
def Accepts (t : Tables F n) : Edit → Prop
  | .allocate => t.used < n
  | .write frame index raw =>
    frame < t.used ∧ index < F.entries ∧
      (t.entryAt frame index = 0 ∨ t.entryAt frame index = F.width.stored raw)

/-- Whether none of the changes `es`, made in order, replaces anything. -/
def AcceptsAll (t : Tables F n) : List Edit → Prop
  | [] => True
  | e :: es => t.Accepts e ∧ (t.edit e).AcceptsAll es

/-- Whether a change stays in the storage: there is a frame to hand out, or the entry to write is in a
frame in use. -/
def Reaches (t : Tables F n) : Edit → Prop
  | .allocate => t.used < n
  | .write frame index _ => frame < t.used ∧ index < F.entries

/-- Whether a change replaces an entry that is not empty by a different one. -/
def Replaces (t : Tables F n) : Edit → Prop
  | .allocate => False
  | .write frame index raw =>
    t.entryAt frame index ≠ 0 ∧ t.entryAt frame index ≠ F.width.stored raw

/-- Whether all the changes `es`, made in order, stay in the storage. -/
def ReachesAll (t : Tables F n) : List Edit → Prop
  | [] => True
  | e :: es => t.Reaches e ∧ (t.edit e).ReachesAll es

/-- Whether none of the changes `es`, made in order, replaces an entry. -/
def ReplacesNone (t : Tables F n) : List Edit → Prop
  | [] => True
  | e :: es => ¬t.Replaces e ∧ (t.edit e).ReplacesNone es

instance (t : Tables F n) : (e : Edit) → Decidable (t.Replaces e)
  | .allocate => inferInstanceAs (Decidable False)
  | .write frame index raw =>
    inferInstanceAs (Decidable (t.entryAt frame index ≠ 0 ∧
      t.entryAt frame index ≠ F.width.stored raw))

instance decidableReplacesNone : (t : Tables F n) → (es : List Edit) → Decidable (t.ReplacesNone es)
  | _, [] => inferInstanceAs (Decidable True)
  | t, e :: es =>
    have := decidableReplacesNone (t.edit e) es
    inferInstanceAs (Decidable (¬t.Replaces e ∧ (t.edit e).ReplacesNone es))

/-- A change is accepted when it stays in the storage and replaces nothing. -/
theorem accepts_iff {t : Tables F n} {e : Edit} : t.Accepts e ↔ t.Reaches e ∧ ¬t.Replaces e := by
  cases e with
  | allocate => exact ⟨fun h => ⟨h, id⟩, fun h => h.1⟩
  | write frame index raw =>
    unfold Accepts Reaches Replaces
    rw [and_assoc, Classical.not_and_iff_not_or_not, Classical.not_not, Classical.not_not]

/-- Changes are accepted when they stay in the storage and replace nothing. -/
theorem acceptsAll_iff {t : Tables F n} {es : List Edit} :
    t.AcceptsAll es ↔ t.ReachesAll es ∧ t.ReplacesNone es := by
  induction es generalizing t with
  | nil => exact ⟨fun h => ⟨h, h⟩, fun h => h.1⟩
  | cons e es ih =>
    show t.Accepts e ∧ (t.edit e).AcceptsAll es ↔
      (t.Reaches e ∧ (t.edit e).ReachesAll es) ∧ (¬t.Replaces e ∧ (t.edit e).ReplacesNone es)
    rw [accepts_iff, ih, and_and_and_comm]

/-- Changes after other changes, in the storage. -/
theorem reachesAll_append {t : Tables F n} {es es' : List Edit} :
    t.ReachesAll (es ++ es') ↔ t.ReachesAll es ∧ (t.after es).ReachesAll es' := by
  induction es generalizing t with
  | nil => exact ⟨fun h => ⟨trivial, h⟩, fun h => h.2⟩
  | cons e es ih =>
    show (t.Reaches e ∧ (t.edit e).ReachesAll (es ++ es')) ↔
      (t.Reaches e ∧ (t.edit e).ReachesAll es) ∧ ((t.edit e).after es).ReachesAll es'
    rw [ih, and_assoc]

/-- Changes after other changes, that replace nothing. -/
theorem replacesNone_append {t : Tables F n} {es es' : List Edit} :
    t.ReplacesNone (es ++ es') ↔ t.ReplacesNone es ∧ (t.after es).ReplacesNone es' := by
  induction es generalizing t with
  | nil => exact ⟨fun h => ⟨trivial, h⟩, fun h => h.2⟩
  | cons e es ih =>
    show (¬t.Replaces e ∧ (t.edit e).ReplacesNone (es ++ es')) ↔
      (¬t.Replaces e ∧ (t.edit e).ReplacesNone es) ∧ ((t.edit e).after es).ReplacesNone es'
    rw [ih, and_assoc]

/-- Changes after other changes, that are accepted. -/
theorem acceptsAll_append {t : Tables F n} {es es' : List Edit} :
    t.AcceptsAll (es ++ es') ↔ t.AcceptsAll es ∧ (t.after es).AcceptsAll es' := by
  rw [acceptsAll_iff, acceptsAll_iff, acceptsAll_iff, reachesAll_append, replacesNone_append,
    and_and_and_comm]

/-- A change in the storage keeps it regular, and keeps frames in use. -/
theorem Reaches.step {t : Tables F n} (ht : t.Regular) {e : Edit} (h : t.Reaches e) :
    (t.edit e).Regular ∧ t.used ≤ (t.edit e).used := by
  cases e with
  | allocate => exact ⟨ht.takeFrame h, Nat.le_succ _⟩
  | write frame index raw =>
    exact ⟨ht.setEntry h.1 h.2 raw, Nat.le_of_eq (setEntry_base_used t frame index raw).2.symm⟩

/-- Changes in the storage keep it regular, and keep frames in use. -/
theorem ReachesAll.after {t : Tables F n} (ht : t.Regular) {es : List Edit} (h : t.ReachesAll es) :
    (t.after es).Regular ∧ t.used ≤ (t.after es).used := by
  induction es generalizing t with
  | nil => exact ⟨ht, Nat.le_refl _⟩
  | cons e es ih =>
    obtain ⟨hreg, hused⟩ := h.1.step ht
    obtain ⟨hreg', hused'⟩ := ih hreg h.2
    exact ⟨hreg', Nat.le_trans hused hused'⟩

/-- An entry that differs after changes in the storage has been written. -/
theorem ReachesAll.mem_of_entryAt_ne {t : Tables F n} (ht : t.Regular) {es : List Edit}
    (h : t.ReachesAll es) {frame : FrameId} {index : Nat}
    (hne : (t.after es).entryAt frame index ≠ t.entryAt frame index) :
    ∃ raw, Edit.write frame index raw ∈ es := by
  induction es generalizing t with
  | nil => exact absurd rfl hne
  | cons e es ih =>
    have hreg := (h.1.step ht).1
    -- Either the first change leaves the entry as it is, or the first change writes it.
    by_cases hstep : (t.edit e).entryAt frame index = t.entryAt frame index
    · obtain ⟨raw, hmem⟩ := ih hreg h.2 (by rwa [after_cons, ← hstep] at hne)
      exact ⟨raw, List.mem_cons_of_mem _ hmem⟩
    · cases e with
      | allocate =>
        exact absurd (ht.entryAt_takeFrame frame index) hstep
      | write f i raw =>
        obtain ⟨hf, hi⟩ := h.1
        have hset := entryAt_setEntry t raw (Nat.lt_of_lt_of_le hf ht.used_le) hi frame index
        by_cases heq : frame = f ∧ index = i
        · obtain ⟨rfl, rfl⟩ := heq
          exact ⟨raw, List.mem_cons_self⟩
        · exact absurd (hset.trans (if_neg heq)) hstep

/-- Whether `t'` holds all that `t` holds: its frames in use, and its entries that are not zero. -/
structure Extends (t' t : Tables F n) : Prop where
  /-- the frames are where they were -/
  base_eq : t'.base = t.base
  /-- frames stay in use -/
  used_le : t.used ≤ t'.used
  /-- entries stay -/
  entry_eq : ∀ frame index, t.entryAt frame index ≠ 0 →
    t'.entryAt frame index = t.entryAt frame index

/-- Storage holds what it holds. -/
theorem Extends.refl (t : Tables F n) : t.Extends t := ⟨rfl, Nat.le_refl _, fun _ _ _ => rfl⟩

/-- What storage holds stays over two extensions. -/
theorem Extends.trans {t t' t'' : Tables F n} (h' : t''.Extends t') (h : t'.Extends t) :
    t''.Extends t where
  base_eq := h'.base_eq.trans h.base_eq
  used_le := Nat.le_trans h.used_le h'.used_le
  entry_eq := by
    intro frame index hne
    have he := h.entry_eq frame index hne
    rw [h'.entry_eq frame index (he ▸ hne), he]

/-- A change that replaces nothing keeps storage regular, and extends it. -/
theorem Accepts.step {t : Tables F n} (ht : t.Regular) {e : Edit} (h : t.Accepts e) :
    (t.edit e).Regular ∧ (t.edit e).Extends t := by
  obtain ⟨hreg, hused⟩ := (accepts_iff.mp h).1.step ht
  cases e with
  | allocate => exact ⟨hreg, rfl, hused, fun f i _ => ht.entryAt_takeFrame f i⟩
  | write frame index raw =>
    obtain ⟨hf, hi, hold⟩ := h
    have hframe : frame < n := Nat.lt_of_lt_of_le hf ht.used_le
    refine ⟨hreg, (setEntry_base_used t frame index raw).1, hused, ?_⟩
    intro f i hne
    -- The entry that is written held zero, or holds what is written already.
    refine (entryAt_setEntry t raw hframe hi f i).trans ?_
    split
    · rename_i heq
      obtain ⟨rfl, rfl⟩ := heq
      rcases hold with hzero | hsame
      · exact absurd hzero hne
      · exact hsame.symm
    · rfl

/-- Changes that replace nothing keep storage regular. -/
theorem AcceptsAll.regular {t : Tables F n} (ht : t.Regular) {es : List Edit}
    (h : t.AcceptsAll es) : (t.after es).Regular := ((acceptsAll_iff.mp h).1.after ht).1

/-- Changes that replace nothing extend storage. -/
theorem AcceptsAll.extends {t : Tables F n} (ht : t.Regular) {es : List Edit}
    (h : t.AcceptsAll es) : (t.after es).Extends t := by
  induction es generalizing t with
  | nil => exact Extends.refl t
  | cons e es ih => exact (ih (h.1.step ht).1 h.2).trans (h.1.step ht).2

/-- An entry holds what has been written to it. -/
theorem AcceptsAll.entryAt_of_mem {t : Tables F n} (ht : t.Regular) {es : List Edit}
    (h : t.AcceptsAll es) {frame : FrameId} {index : Nat} {raw : UInt64}
    (hmem : Edit.write frame index raw ∈ es) (hne : F.width.stored raw ≠ 0) :
    (t.after es).entryAt frame index = F.width.stored raw := by
  induction es generalizing t with
  | nil => cases hmem
  | cons e es ih =>
    have hreg := (h.1.step ht).1
    rcases List.mem_cons.mp hmem with rfl | hmem
    · obtain ⟨⟨hf, hi, -⟩, htail⟩ := h
      have hnow : (t.edit (.write frame index raw)).entryAt frame index = F.width.stored raw :=
        (entryAt_setEntry t raw (Nat.lt_of_lt_of_le hf ht.used_le) hi frame index).trans
          (if_pos ⟨rfl, rfl⟩)
      -- The entry is not zero now, so no later change replaces it.
      rw [after_cons, (htail.extends hreg).entry_eq frame index (hnow ▸ hne), hnow]
    · exact ih hreg h.2 hmem

/-- An entry that differs after the changes has been written. -/
theorem AcceptsAll.mem_of_entryAt_ne {t : Tables F n} (ht : t.Regular) {es : List Edit}
    (h : t.AcceptsAll es) {frame : FrameId} {index : Nat}
    (hne : (t.after es).entryAt frame index ≠ t.entryAt frame index) :
    ∃ raw, Edit.write frame index raw ∈ es := (acceptsAll_iff.mp h).1.mem_of_entryAt_ne ht hne

/-- An empty entry that is filled after the changes has been written. -/
theorem AcceptsAll.mem_of_filled {t : Tables F n} (ht : t.Regular) {es : List Edit}
    (h : t.AcceptsAll es) {frame : FrameId} {index : Nat} (hz : t.entryAt frame index = 0)
    (hne : (t.after es).entryAt frame index ≠ 0) : ∃ raw, Edit.write frame index raw ∈ es :=
  h.mem_of_entryAt_ne ht fun he => hne (he.trans hz)

/-- Changes leave the frames where they are. -/
@[simp] theorem base_after (t : Tables F n) (es : List Edit) : (t.after es).base = t.base := by
  induction es generalizing t with
  | nil => rfl
  | cons e es ih =>
    rw [after_cons, ih]
    cases e with
    | allocate => rfl
    | write frame index raw => exact (setEntry_base_used t frame index raw).1

/-- Frames have the same addresses after changes. -/
theorem frameAddress_after (t : Tables F n) (es : List Edit) (frame : FrameId) :
    (t.after es).frameAddress frame = t.frameAddress frame := by
  unfold frameAddress
  rw [base_after]

/-- The number of frames in use after changes. -/
theorem used_after (t : Tables F n) (es : List Edit) :
    (t.after es).used = t.used + es.count .allocate := by
  induction es generalizing t with
  | nil => rfl
  | cons e es ih =>
    rw [after_cons, ih]
    cases e with
    | allocate =>
      rw [List.count_cons_self]
      exact Nat.add_right_comm t.used 1 _
    | write frame index raw =>
      rw [List.count_cons_of_ne (by intro h; cases h)]
      exact congrArg (· + _) (setEntry_base_used t frame index raw).2

end Tables

/-! ## Builders and their edits -/

namespace Worksite

/-- The worksite after the changes `es`, oldest first. -/
def perform (w : Worksite F n) (es : List Edit) : Worksite F n :=
  { w with tables := w.tables.after es, edits := w.edits ++ es.toArray }

@[simp] theorem tables_perform (w : Worksite F n) (es : List Edit) :
    (w.perform es).tables = w.tables.after es := rfl

@[simp] theorem perform_nil (w : Worksite F n) : w.perform [] = w := by
  unfold perform
  simp only [Tables.after_nil, Array.append_empty]

@[simp] theorem perform_append (w : Worksite F n) (es es' : List Edit) :
    (w.perform es).perform es' = w.perform (es ++ es') := by
  unfold perform
  simp only [Tables.after_append, Array.append_assoc, List.append_toArray]

end Worksite

namespace Builder

variable {ε α β : Type}

/-- A builder that continues another one, once the first has succeeded. -/
theorem bind_ok {x : Builder F n ε α} {f : α → Builder F n ε β} {w w' : Worksite F n} {a : α}
    (h : x w = .ok a w') : (x >>= f) w = f a w' := by
  simp only [bind, EStateM.bind, h]

/-- A builder that has failed does not continue. -/
theorem bind_error {x : Builder F n ε α} {f : α → Builder F n ε β} {w w' : Worksite F n}
    {stop : Stop ε} (h : x w = .error stop w') : (x >>= f) w = .error stop w' := by
  simp only [bind, EStateM.bind, h]

/-- Two builders succeed one after the other when both do. -/
theorem of_bind_ok {x : Builder F n ε α} {f : α → Builder F n ε β} {w w'' : Worksite F n} {b : β}
    (h : (x >>= f) w = .ok b w'') : ∃ a w', x w = .ok a w' ∧ f a w' = .ok b w'' := by
  cases hx : x w with
  | ok a w' => exact ⟨a, w', rfl, (bind_ok hx).symm.trans h⟩
  | error stop w' => cases (bind_error hx).symm.trans h

/-- A value that is passed on is given, and nothing is done. -/
theorem of_ofOutcome_ok {o : Outcome ε α} {w w' : Worksite F n} {a : α}
    (h : (ofOutcome o : Builder F n ε α) w = .ok a w') : o = .ok a ∧ w' = w := by
  cases o with
  | ok a => cases h; exact ⟨rfl, rfl⟩
  | error stop => cases h

/-- A value that is known without a fault is passed on. -/
theorem ofFaulting_ok {o : Except Fault α} {a : α} (h : o = .ok a) (w : Worksite F n) :
    (ofFaulting o : Builder F n ε α) w = .ok a w := by
  rw [h]
  rfl

/-- A value that is given is passed on. -/
theorem ofOutcome_ok {o : Outcome ε α} {a : α} (h : o = .ok a) (w : Worksite F n) :
    (ofOutcome o : Builder F n ε α) w = .ok a w := by
  rw [h]
  rfl

/-- A stop that is given stops the builder. -/
theorem ofOutcome_error {o : Outcome ε α} {stop : Stop ε} (h : o = .error stop)
    (w : Worksite F n) : (ofOutcome o : Builder F n ε α) w = .error stop w := by
  rw [h]
  rfl

/-- A builder that succeeds does so with its causes in other terms. -/
theorem mapCause_ok {δ : Type} {b : Builder F n ε α} {w w' : Worksite F n} {a : α}
    (h : b w = .ok a w') (f : ε → δ) : mapCause f b w = .ok a w' := by
  unfold mapCause
  rw [h]

/-- A builder that stops does so with its cause in other terms. -/
theorem mapCause_error {δ : Type} {b : Builder F n ε α} {w w' : Worksite F n} {stop : Stop ε}
    (h : b w = .error stop w') (f : ε → δ) : mapCause f b w = .error (stop.map f) w' := by
  unfold mapCause
  rw [h]

/-- A builder reads the tables as they are. -/
theorem tables_ok (w : Worksite F n) : (tables : Builder F n ε _) w = .ok w.tables w := rfl

/-- What a builder says goes to the log. -/
theorem say_ok (r : Journal.Record) (w : Worksite F n) :
    (say r : Builder F n ε Unit) w = .ok () { w with log := w.log.push r } := rfl

/-- Writing an entry of the storage is one edit. -/
theorem write_ok {frame : FrameId} {index : Nat} (raw : UInt64) (hf : frame < n)
    (hi : index < F.entries) (w : Worksite F n) :
    (write frame index raw : Builder F n ε Unit) w = .ok () (w.perform [.write frame index raw]) := by
  unfold write
  rw [Tables.write_eq_ok w.tables raw hf hi]
  rfl

/-- Handing out a frame is one edit. -/
theorem allocate_ok (exhausted : ε) {w : Worksite F n} (h : w.tables.used < n) :
    allocate exhausted w = .ok w.tables.used (w.perform [.allocate]) := by
  unfold allocate
  rw [Tables.allocate_eq_some w.tables h]
  rfl

/-- When all frames are in use, none is handed out. -/
theorem allocate_error (exhausted : ε) {w : Worksite F n} (h : w.tables.used = n) :
    allocate exhausted w = .error (.refused exhausted) w := by
  unfold allocate
  rw [Tables.allocate_eq_none w.tables h]

end Builder

end BootLoader.Paging
