import BootLoader.Proofs.Paging.Lookup
import BootLoader.Proofs.Paging.Raising

/-!
# Walks while a plan is performed

The writes of a plan replace nothing, so after some of them the tables hold all that they held
before, and no more than they hold in the end: an address is translated as before or as afterwards
(`Tables.translate_between`). A child is handed out and filled before the root entry that points at
it is written. `Tables.Published` says this of the writes of the visits that are left, and is put
together visit by visit (`Tables.Visits.published`): a later visit goes to the root, to a frame that
is handed out later, or to a child that was there before. Both together are
`Tables.Raised.apply_prefixes`.
-/

namespace BootLoader.Paging

variable {F : Format} {n : Nat}

/-- A list that is split at `x`, and is two lists in a row, has its `x` in the first or in the
second. -/
theorem append_eq_append_cons {α : Type} {xs ys pre post : List α} {x : α}
    (h : xs ++ ys = pre ++ x :: post) :
    (∃ mid, xs = pre ++ x :: mid ∧ post = mid ++ ys) ∨
      ∃ mid, pre = xs ++ mid ∧ ys = mid ++ x :: post := by
  rcases List.append_eq_append_iff.mp h with ⟨mid, rfl, rfl⟩ | ⟨mid, rfl, hmid⟩
  · exact .inr ⟨mid, rfl, rfl⟩
  · cases mid with
    | nil => exact .inr ⟨[], by rw [List.append_nil, List.append_nil], hmid.symm⟩
    | cons y mid =>
      obtain ⟨rfl, rfl⟩ := List.cons.inj hmid
      exact .inl ⟨mid, rfl, rfl⟩

/-- Different changes lead to different worksites, since these keep account of them. -/
theorem Worksite.perform_inj {w : Worksite F n} {es es' : List Edit}
    (h : w.perform es = w.perform es') : es = es' := by
  have hedits : w.edits ++ es.toArray = w.edits ++ es'.toArray := congrArg Worksite.edits h
  exact List.toArray_inj ((Array.append_right_inj _).mp hedits)

namespace Tables

variable {t : Tables F n} {root : FrameId} {p : Plan}

/-- A planted child is pointed at by the last of the writes, and by no other. -/
theorem split_plantEdits {s : Nat} {first count : Nat} (hroot : root < t.used) {pre mid : List Edit}
    {i : Nat} {raw : UInt64}
    (h : t.plantEdits root s p first count = pre ++ .write root i raw :: mid) :
    pre = .allocate :: p.leafEdits F t.used first count ∧ i = s ∧
      raw = F.pointerWord (t.frameAddress t.used) ∧ mid = [] := by
  unfold plantEdits at h
  rw [← List.cons_append] at h
  rcases append_eq_append_cons h with ⟨rest, hpre, -⟩ | ⟨rest, rfl, hlast⟩
  · -- The other writes go to the new child.
    have hmem : Edit.write root i raw ∈ Edit.allocate :: p.leafEdits F t.used first count := by
      rw [hpre]
      exact List.mem_append_right _ List.mem_cons_self
    rcases List.mem_cons.mp hmem with he | hmem
    · cases he
    · obtain ⟨j, -, -, he⟩ := Plan.mem_leafEdits.mp hmem
      injection he with hframe
      exact absurd hframe (Nat.ne_of_lt hroot)
  · cases rest with
    | nil =>
      obtain ⟨he, rfl⟩ := List.cons.inj hlast
      injection he with _ hi hraw
      exact ⟨List.append_nil _, hi.symm, hraw.symm, rfl⟩
    | cons e rest =>
      have hnil := (List.cons.inj hlast).2
      exact absurd hnil.symm (List.append_ne_nil_of_right_ne_nil _ (List.cons_ne_nil _ _))

/-- The writes `es` for the leaves number `step` to `last - 1` of a plan publish children when these
are complete: a write to the root is a pointer at a new frame that holds its leaves and is not
written again. -/
structure Published (t : Tables F n) (root : FrameId) (p : Plan) (step last : Nat) (es : List Edit) :
    Prop where
  /-- a write goes to the root, to a new frame, or to the child of a leaf -/
  write_to : ∀ f i raw, .write f i raw ∈ es → f = root ∨ t.used ≤ f ∨
    ∃ j, step ≤ j ∧ j < last ∧ t.childAt root (p.slot F j) = some f
  /-- what is written to the root is a pointer at a complete child -/
  complete : ∀ pre s raw post, es = pre ++ .write root s raw :: post → ∃ c, t.used ≤ c ∧
    c < (t.after pre).used ∧ raw = F.pointerWord (t.frameAddress c) ∧
    (∃ j, step ≤ j ∧ j < last ∧ p.slot F j = s) ∧ (∀ i raw', .write c i raw' ∉ post) ∧
    ∀ j, step ≤ j → j < last → p.slot F j = s → .write c (p.place F j) (p.leafRaw F j) ∈ pre
  /-- a pointer at each new frame is written, when the frame is in use -/
  pointed : ∀ c, t.used ≤ c → c < (t.after es).used → ∃ pre s post,
    es = pre ++ .write root s (F.pointerWord (t.frameAddress c)) :: post ∧ c < (t.after pre).used

/-- A visit writes to the root, to a new frame, or to the child that is there. -/
theorem Visit.write_to {step count : Nat} {es : List Edit} (h : t.Visit root p step count es)
    {f i : Nat} {raw : UInt64} (hmem : .write f i raw ∈ es) :
    f = root ∨ t.used ≤ f ∨ t.childAt root (p.slot F step) = some f := by
  cases h with
  | plant hz =>
    rcases write_of_mem_plantEdits hmem with ⟨hf, -⟩ | ⟨j, -, -, hf, -⟩
    · exact .inl hf
    · exact .inr (.inl (Nat.le_of_eq hf.symm))
  | fill hc hne =>
    obtain ⟨j, -, -, he⟩ := Plan.mem_leafEdits.mp hmem
    injection he with hf
    exact .inr (.inr (hf ▸ hc))

/-- What a visit writes to the root is the pointer at its new child, after the leaves of the child.
-/
theorem Visit.complete {step count : Nat} {es : List Edit} (h : t.Visit root p step count es)
    (hroot : root < t.used) {pre mid : List Edit} {s : Nat} {raw : UInt64}
    (hsplit : es = pre ++ .write root s raw :: mid) :
    t.entryAt root (p.slot F step) = 0 ∧ s = p.slot F step ∧
      raw = F.pointerWord (t.frameAddress t.used) ∧ t.used < (t.after pre).used ∧ mid = [] ∧
      ∀ j, step ≤ j → j < step + count → .write t.used (p.place F j) (p.leafRaw F j) ∈ pre := by
  cases h with
  | plant hz =>
    obtain ⟨rfl, hs, hraw, hmid⟩ := split_plantEdits hroot hsplit
    refine ⟨hz, hs, hraw, ?_, hmid, fun j hge hlt => ?_⟩
    · rw [used_after, List.count_cons_self, p.count_leafEdits]
      omega
    · exact List.mem_cons_of_mem _ (Plan.write_mem_leafEdits hge hlt)
  | @fill c hc hne =>
    have hmem : Edit.write root s raw ∈ p.leafEdits F c step count := by
      rw [hsplit]
      exact List.mem_append_right _ List.mem_cons_self
    obtain ⟨j, -, -, he⟩ := Plan.mem_leafEdits.mp hmem
    injection he with hf
    exact absurd hf.symm hne

/-- The children of the entries that are visited later were there before this visit. -/
theorem Visited.childAt_of_ne {t' : Tables F n} {s i : Nat} (h : t.Visited t' root s) (hi : i ≠ s)
    (hready : t.entryAt root i = 0 ∨ ∃ c, t.childAt root i = some c ∧ c ≠ root) {f : FrameId}
    (hf : t'.childAt root i = some f) : t.childAt root i = some f := by
  rcases hready with hz | ⟨c, hc, -⟩
  · exact absurd ((h.entry_eq i hi).trans hz) (childAt_ne_zero hf)
  · obtain rfl : c = f := Option.some.inj
      ((childAt_congr h.base_eq h.used_le (h.entry_eq i hi) hc).symm.trans hf)
    exact hc

/-! ### One visit and the others -/

section Visit

variable {step inSlot last : Nat} {es es' : List Edit}

/-- A visit and the later ones write to the root, to new frames, and to children that were there
before. -/
theorem Published.write_to_visit (hvisit : t.Visit root p step inSlot es)
    (hvisited : t.Visited (t.after es) root (p.slot F step))
    (hold : ∀ j, step + inSlot ≤ j → j < last → ∀ f,
      (t.after es).childAt root (p.slot F j) = some f → t.childAt root (p.slot F j) = some f)
    (h : (t.after es).Published root p (step + inSlot) last es') (hlt : step < last) {f i : Nat}
    {raw : UInt64} (hmem : .write f i raw ∈ es ++ es') : f = root ∨ t.used ≤ f ∨
      ∃ j, step ≤ j ∧ j < last ∧ t.childAt root (p.slot F j) = some f := by
  rcases List.mem_append.mp hmem with hmem | hmem
  · rcases hvisit.write_to hmem with hf | hf | hf
    · exact .inl hf
    · exact .inr (.inl hf)
    · exact .inr (.inr ⟨step, Nat.le_refl _, hlt, hf⟩)
  · rcases h.write_to f i raw hmem with hf | hf | ⟨j, hge, hj, hf⟩
    · exact .inl hf
    · exact .inr (.inl (Nat.le_trans hvisited.used_le hf))
    · exact .inr (.inr ⟨j, by omega, hj, hold j hge hj f hf⟩)

/-- What a visit and the later ones write to the root are pointers at complete children: the later
visits go to other entries, and do not write to the child of this one. -/
theorem Published.complete_visit (hvisit : t.Visit root p step inSlot es)
    (hvisited : t.Visited (t.after es) root (p.slot F step)) (hroot : root < t.used)
    (hsame : ∀ j, step ≤ j → j < step + inSlot → p.slot F j = p.slot F step)
    (hlater : ∀ j, step + inSlot ≤ j → j < last → p.slot F j ≠ p.slot F step)
    (hold : ∀ j, step + inSlot ≤ j → j < last → ∀ f,
      (t.after es).childAt root (p.slot F j) = some f → t.childAt root (p.slot F j) = some f)
    (h : (t.after es).Published root p (step + inSlot) last es') (hlt : step < last)
    {pre post : List Edit} {s : Nat} {raw : UInt64}
    (hsplit : es ++ es' = pre ++ .write root s raw :: post) : ∃ c, t.used ≤ c ∧
      c < (t.after pre).used ∧ raw = F.pointerWord (t.frameAddress c) ∧
      (∃ j, step ≤ j ∧ j < last ∧ p.slot F j = s) ∧ (∀ i raw', .write c i raw' ∉ post) ∧
      ∀ j, step ≤ j → j < last → p.slot F j = s →
        .write c (p.place F j) (p.leafRaw F j) ∈ pre := by
  have hused := hvisited.used_eq
  rcases append_eq_append_cons hsplit with ⟨mid, hes, rfl⟩ | ⟨mid, rfl, hes'⟩
  · -- The pointer is that of this visit.
    obtain ⟨hz, rfl, hraw, hpre, rfl, hleaves⟩ := hvisit.complete hroot hes
    rw [hz, beq_self_eq_true, if_pos rfl] at hused
    refine ⟨t.used, Nat.le_refl _, hpre, hraw, ⟨step, Nat.le_refl _, hlt, rfl⟩, ?_, ?_⟩
    · intro i raw' hmem
      rcases h.write_to _ i raw' hmem with hf | hf | ⟨j, hge, hj, hf⟩
      · exact Nat.ne_of_lt hroot hf.symm
      · omega
      · exact Nat.lt_irrefl _ (childAt_lt (hold j hge hj _ hf))
    · intro j hge hj hslot
      exact hleaves j hge (Nat.lt_of_not_le fun hout => hlater j hout hj hslot)
  · obtain ⟨c, hc, hcu, hraw, ⟨k, hkge, hk, rfl⟩, hno, hleaves⟩ := h.complete mid s raw post hes'
    rw [← after_append] at hcu
    rw [frameAddress_after] at hraw
    refine ⟨c, Nat.le_trans hvisited.used_le hc, hcu, hraw, ⟨k, by omega, hk, rfl⟩, hno, ?_⟩
    intro j hge hj hslot
    refine List.mem_append_right _ (hleaves j (Nat.le_of_not_lt fun hin => ?_) hj hslot)
    exact hlater k hkge hk (hslot.symm.trans (hsame j hge hin))

/-- The frames that a visit and the later ones hand out are pointed at. -/
theorem Published.pointed_visit (hvisit : t.Visit root p step inSlot es)
    (hvisited : t.Visited (t.after es) root (p.slot F step))
    (h : (t.after es).Published root p (step + inSlot) last es') {c : Nat} (hge : t.used ≤ c)
    (hlt : c < (t.after (es ++ es')).used) : ∃ pre s post,
      es ++ es' = pre ++ .write root s (F.pointerWord (t.frameAddress c)) :: post ∧
        c < (t.after pre).used := by
  have hused := hvisited.used_eq
  rw [after_append] at hlt
  rcases Nat.lt_or_ge c (t.after es).used with hnew | hnew
  · -- A frame that this visit has handed out is a planted child.
    cases hvisit with
    | plant hz =>
      rw [hz, beq_self_eq_true, if_pos rfl] at hused
      obtain rfl : c = t.used := by omega
      refine ⟨.allocate :: p.leafEdits F t.used step inSlot, p.slot F step, es', ?_, ?_⟩
      · unfold plantEdits
        rw [List.cons_append, List.cons_append, List.append_assoc, List.singleton_append]
      · rw [used_after, List.count_cons_self]
        omega
    | fill hc hne =>
      rw [beq_false_of_ne (childAt_ne_zero hc), if_neg Bool.false_ne_true] at hused
      omega
  · obtain ⟨pre, s, post, hes', hpre⟩ := h.pointed c hnew hlt
    rw [frameAddress_after] at hes'
    refine ⟨es ++ pre, s, post, by rw [hes', List.append_assoc], ?_⟩
    rwa [after_append]

end Visit

/-- Visits that do not come back to an entry publish children when these are complete. -/
theorem Visits.published (hp : p.Sound F) (hmid : p.tier = .intermediate) {step remaining : Nat}
    {es : List Edit} (h : Visits root p t step remaining es) (hroot : root < t.used)
    (hend : step + remaining = p.steps) (hready : t.Ready root p step remaining)
    (hround : p.Ahead F step p.steps) : t.Published root p step p.steps es := by
  induction h with
  | done t step =>
    refine ⟨fun f i raw hmem => absurd hmem List.not_mem_nil, fun pre s raw post hsplit => ?_,
      fun c hge hlt => ?_⟩
    · exact absurd hsplit.symm (List.append_ne_nil_of_right_ne_nil _ (List.cons_ne_nil _ _))
    · exact absurd hge (Nat.not_le_of_lt hlt)
  | @visit t step remaining es es' hpos hvisit hvisited hrest ih =>
    have hinSlot := F.stepsInSlot_le (p.leafVirt step) remaining
    have hsame := hp.slot_eq_of_visit hmid (Nat.le_of_eq hend)
    have hlater := fun j hge hj =>
      hp.slot_ne_of_visit hmid hend (by omega) hround (j := j) hge hj hj
    generalize F.stepsInSlot (p.leafVirt step) remaining = inSlot at *
    have hold : ∀ j, step + inSlot ≤ j → j < p.steps → ∀ f,
        (t.after es).childAt root (p.slot F j) = some f → t.childAt root (p.slot F j) = some f :=
      fun j hge hlt f => hvisited.childAt_of_ne (hlater j hge hlt) (hready j (by omega) (by omega))
    have hothers := ih (Nat.lt_of_lt_of_le hroot hvisited.used_le) (by omega)
      (fun j hge hlt => hvisited.ready_of_ne (hlater j hge (by omega))
        (hready j (by omega) (by omega))) (hround.mono (Nat.le_add_right _ _))
    have hstep : step < p.steps := by omega
    exact {
      write_to := fun f i raw => hothers.write_to_visit hvisit hvisited hold hstep
      complete := fun pre s raw post =>
        hothers.complete_visit hvisit hvisited hroot hsame hlater hold hstep
      pointed := fun c => hothers.pointed_visit hvisit hvisited }

/-- A pointer at a frame in use is read back as soon as it has been written. -/
theorem childAt_after_pointer (hreg : t.Regular) (hplaced : F.Placed n t.base) {pre post : List Edit}
    {s : Nat} {c : FrameId}
    (haccepts : t.AcceptsAll (pre ++ .write root s (F.pointerWord (t.frameAddress c)) :: post))
    (hc : c < (t.after pre).used) :
    (t.after (pre ++ [.write root s (F.pointerWord (t.frameAddress c))])).childAt root s = some c := by
  rw [List.append_cons] at haccepts
  have hprefix := (acceptsAll_append.mp haccepts).1
  have hpre := (acceptsAll_append.mp hprefix).1
  have hregPre := hpre.regular hreg
  have hmem : Edit.write root s (F.pointerWord (t.frameAddress c)) ∈
      pre ++ [.write root s (F.pointerWord (t.frameAddress c))] :=
    List.mem_append_right _ List.mem_cons_self
  have hle := ((acceptsAll_append.mp hprefix).2.extends hregPre).used_le
  rw [← after_append] at hle
  refine childAt_of_pointer (by rw [base_after, hplaced.base_aligned]) (Nat.lt_of_lt_of_le hc hle)
    (by rw [base_after]; exact hplaced.frame_lt _ (Nat.lt_of_lt_of_le hc hregPre.used_le)) ?_
  rw [frameAddress_after]
  exact hprefix.entryAt_of_mem hreg hmem
    (Format.stored_pointerWord_ne_zero (frameAddress_aligned hplaced.base_aligned c))

/-- A plan for which there are places and frames is performed by writes that replace nothing, and,
unless it goes around the root, by visits that publish children when these are complete. -/
theorem Forest.apply_visits {w : Worksite F n} {low : FrameId} {roots : List FrameId}
    (h : w.tables.Forest low roots) (hr : root ∈ roots) (hplaced : F.Placed n w.tables.base)
    (hafford : w.tables.Affords root p) :
    ∃ es, Builder.apply root p w = .ok () (w.perform es) ∧ w.tables.AcceptsAll es ∧
      (p.tier = .top → (w.tables.after es).used = w.tables.used) ∧
      (p.tier = .intermediate → ¬p.Rounds F → w.tables.Published root p 0 p.steps es) := by
  obtain ⟨hp, hadmits, hroom⟩ := hafford
  obtain ⟨hlow, hroot⟩ := h.root_mem root hr
  have hready : p.tier = .intermediate → w.tables.Ready root p 0 p.steps := by
    intro hmid j _ hj
    rcases hadmits j (by omega) with ⟨-, hz⟩ | ⟨c, htable, -⟩
    · exact .inl hz
    · rw [hmid] at htable
      exact .inr ⟨c, htable, fun he => (h.child_mem hr htable).2.2 (he ▸ hr)⟩
  obtain ⟨es, hrun, hperforms, -, -⟩ := Builder.apply_ok h hr (fun _ => hplaced) hp
    (fun j hj => (hadmits j hj).hasPlace h.regular) hroom
  obtain ⟨es', hrun', hused, hvisits⟩ := Builder.apply_ready h.regular hroot hplaced.base_aligned hp
    hready (.inl hplaced) (Nat.le_trans (w.tables.card_vacancies_le root hp) hroom)
  -- Both describe the one run.
  obtain rfl : es = es' := by
    have hsame := hrun.symm.trans hrun'
    injection hsame with _ hworksite
    exact Worksite.perform_inj hworksite
  refine ⟨es, hrun, hperforms.accepted, fun htop => ?_, fun hmid hround => ?_⟩
  · rw [hused]
    unfold vacancies
    rw [htop]
    rfl
  · rw [hp.not_rounds_iff hmid] at hround
    exact (hvisits hmid).published hp hmid hroot (Nat.zero_add _) (hready hmid) hround

/-- What a walk sees while a plan that was made for a root is performed. After every prefix of the
changes, each address is translated under each root as it was before, or as it is in the end. If the
range lies between two multiples of the coverage, each frame that is handed out has a write of the
root entry that points at it, and by that write the frame holds all leaves of the plan that belong
to it and is not written again. -/
theorem Raised.apply_prefixes {w : Worksite F n} {roots : List FrameId} (h : w.tables.Raised roots)
    (hplaced : F.Placed n w.tables.base) (hr : root ∈ roots) (hplan : w.tables.Plans root p) :
    ∃ es, Builder.apply root p w = .ok () (w.perform es) ∧
      (∀ pre, pre <+: es → ∀ r ∈ roots, ∀ va,
        (w.tables.after pre).translate r va = w.tables.translate r va ∨
          (w.tables.after pre).translate r va = (w.tables.after es).translate r va) ∧
      (p.Straight F →
        (∀ c, w.tables.used ≤ c → c < (w.tables.after es).used → ∃ pre s raw post,
          es = pre ++ .write root s raw :: post ∧
            (w.tables.after (pre ++ [.write root s raw])).childAt root s = some c) ∧
        ∀ pre s raw post c, es = pre ++ .write root s raw :: post →
          (w.tables.after (pre ++ [.write root s raw])).childAt root s = some c →
          w.tables.used ≤ c →
          (∀ i raw', .write c i raw' ∉ post) ∧
          ∀ j, j < p.steps → p.slot F j = s →
            (w.tables.after pre).entryAt c (p.place F j) = F.width.stored (p.leafRaw F j)) := by
  obtain ⟨all, hall, hforest⟩ := h.stands hplaced
  have hreg := hforest.regular
  obtain ⟨hafford, -⟩ := hplan.affords hforest (hall root hr)
  obtain ⟨es, hrun, haccepts, htop, hpublished⟩ :=
    hforest.apply_visits (hall root hr) hplaced hafford
  have hregEnd := haccepts.regular hreg
  refine ⟨es, hrun, ?_, fun hstraight => ?_⟩
  · rintro pre ⟨post, rfl⟩ r hrr va
    obtain ⟨hpre, hpost⟩ := acceptsAll_append.mp haccepts
    have hext := hpost.extends (hpre.regular hreg)
    rw [← after_append] at hext
    exact translate_between (hpre.extends hreg) hext hregEnd.used_le
      (hforest.root_lt (hall r hrr)) va
  · have hround := Plan.Sound.not_rounds_of_straight hstraight
    cases htier : p.tier with
    | top =>
      -- No frame is handed out.
      have hused := htop htier
      refine ⟨fun c hge hlt => by omega, fun pre s raw post c hsplit hc hge => ?_⟩
      rw [hsplit, List.append_cons] at haccepts hused
      have hregPre := (acceptsAll_append.mp haccepts).1.regular hreg
      have hle := ((acceptsAll_append.mp haccepts).2.extends hregPre).used_le
      rw [← after_append, hused] at hle
      exact absurd (childAt_lt hc) (Nat.not_lt_of_le (Nat.le_trans hle hge))
    | intermediate =>
      have hpub := hpublished htier hround
      refine ⟨fun c hge hlt => ?_, fun pre s raw post c hsplit hc hge => ?_⟩
      · obtain ⟨pre, s, post, hsplit, hpre⟩ := hpub.pointed c hge hlt
        exact ⟨pre, s, _, post, hsplit, childAt_after_pointer hreg hplaced (hsplit ▸ haccepts) hpre⟩
      · obtain ⟨c', hge', hlt', rfl, -, hno, hleaves⟩ := hpub.complete pre s raw post hsplit
        have hc' := childAt_after_pointer hreg hplaced (hsplit ▸ haccepts) hlt'
        obtain rfl : c' = c := Option.some.inj (hc'.symm.trans hc)
        refine ⟨hno, fun j hj hslot => ?_⟩
        rw [hsplit] at haccepts
        exact (acceptsAll_append.mp haccepts).1.entryAt_of_mem hreg
          (hleaves j (Nat.zero_le j) hj hslot) (hafford.sound.stored_leafRaw_ne_zero hj)

/-- Two blocks under two root entries. While they are mapped, the first one is translated to nothing
or to its image, and the first child is not written after the pointer at it. -/
theorem Raised.apply_prefixes_sv39 :
    let w : Worksite .sv39 3 := { tables := (Tables.empty .sv39 3 ⟨0x80400000⟩).takeFrame }
    let p : Plan := ⟨.intermediate, ⟨0x3fe00000⟩, ⟨0x80000000⟩, 2, 0x200000, 2, .normal⟩
    w.tables.Raised [0] ∧ Format.Placed .sv39 3 w.tables.base ∧ w.tables.Plans 0 p ∧
      p.Straight .sv39 ∧ ∃ es, Builder.apply 0 p w = .ok () (w.perform es) ∧
        (∀ pre, pre <+: es → (w.tables.after pre).translate 0 ⟨0x3fe00000⟩ = .ok none ∨
          (w.tables.after pre).translate 0 ⟨0x3fe00000⟩ = .ok (some ⟨0x80000000⟩)) ∧
        ∃ pre s raw post, es = pre ++ .write 0 s raw :: post ∧
          (w.tables.after (pre ++ [.write 0 s raw])).childAt 0 s = some 1 ∧
          ∀ i raw', .write 1 i raw' ∉ post := by
  intro w p
  have hraised : w.tables.Raised [0] := .addRoot (.empty _) (by decide)
  have hplaced : Format.Placed .sv39 3 w.tables.base := ⟨by decide, by decide⟩
  have hplan : w.tables.Plans 0 p :=
    .inl ⟨⟨0x3fe00000⟩, ⟨0x80000000⟩, 0x400000, .normal, by decide +kernel⟩
  have hstraight : p.Straight .sv39 := by decide
  have hbefore : w.tables.translate 0 ⟨0x3fe00000⟩ = .ok none := by decide +kernel
  have hafter : (Builder.siteAfter (Builder.apply 0 p) w).tables.translate 0 ⟨0x3fe00000⟩ =
      .ok (some ⟨0x80000000⟩) := by decide +kernel
  have hused : (Builder.siteAfter (Builder.apply 0 p) w).tables.used = 3 := by decide +kernel
  obtain ⟨es, hrun, hprefix, horder⟩ :=
    Raised.apply_prefixes hraised hplaced List.mem_cons_self hplan
  rw [Builder.siteAfter_ok hrun, Worksite.tables_perform] at hafter hused
  obtain ⟨hpointed, hcomplete⟩ := horder hstraight
  obtain ⟨pre, s, raw, post, hsplit, hchild⟩ := hpointed 1 (by decide) (by rw [hused]; decide)
  refine ⟨hraised, hplaced, hplan, hstraight, es, hrun, fun pre hpre => ?_, pre, s, raw, post, hsplit,
    hchild, (hcomplete pre s raw post 1 hsplit hchild (by decide)).1⟩
  have hseen := hprefix pre hpre 0 List.mem_cons_self ⟨0x3fe00000⟩
  rwa [hbefore, hafter] at hseen

end Tables

end BootLoader.Paging
