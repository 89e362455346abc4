import BootLoader.Proofs.Paging.Care
import BootLoader.Proofs.Paging.Layout
import BootLoader.Proofs.Paging.Refinement

/-!
# Filling the roots of an address space

A plan has the places that it had when it was made as long as the plans performed before it do not
clash with it (`Performs.hasPlace_of_clear`). The plans of an address space that do not clash are
therefore all performed to their ends, one after the other, though each was made for empty roots, and
the roots translate as the plans promise together (`AddressSpace.fill_translates`).
-/

namespace BootLoader.Paging

variable {F : Format} {n : Nat}

section Places

variable {t : Tables F n} {low : FrameId} {roots : List FrameId} {root r : FrameId} {q p : Plan}
  {es : List Edit}

/-- A plan of the top tier leaves the places of a plan with which it does not clash, and those of the
plans under other roots. -/
theorem Tables.Performs.hasPlace_of_clear (h : t.Performs root q 0 q.steps es)
    (hf : t.Forest low roots) (hf' : (t.after es).Forest low roots) (hroot : root ∈ roots)
    (hr : r ∈ roots) (hq : q.Sound F) (htop : q.tier = .top) (hclear : r = root → ¬q.Clashes F p)
    {j : Nat} (hj : j < p.steps) (hplace : t.HasPlace r p j) : (t.after es).HasPlace r p j := by
  refine h.hasPlace_of_agree hf.regular hf' hroot hq (Nat.le_refl _) hr
    (fun hrr k _ hk hslot => ?_) hplace
  -- Leaves under one root entry that do not clash are both in the root, and are stored alike.
  have hsame : p.tier = .top ∧
      F.width.stored (q.leafRaw F k) = F.width.stored (p.leafRaw F j) := by
    by_contra hdiff
    exact hclear hrr ⟨k, hk, j, hj, hslot, fun htop' hstored => hdiff ⟨htop', hstored⟩⟩
  exact ⟨htop.trans hsame.1.symm, fun _ => hsame.2⟩

end Places

/-- The plans of an address space, each with its root, in the order in which they are performed. -/
def Layout.jobs (layout : Layout) (space : AddressSpace) : List (FrameId × Plan) :=
  layout.selfPlans.map (space.selfMap, ·) ++ [(space.kernelMap, layout.window)]

namespace AddressSpace

section Fill

variable {low : FrameId} {roots : List FrameId} {space : AddressSpace} {layout : Layout}
  {footprint : Footprint} {kernel : Region}

/-- The worksite when the plans `made` have been performed, from the tables `t` with empty roots, and
no frame has been handed out. -/
structure Underway (t : Tables F n) (low : FrameId) (roots : List FrameId) (w : Worksite F n)
    (made : List (FrameId × Plan)) : Prop where
  /-- the frames form a forest -/
  forest : w.tables.Forest low roots
  /-- what was there is there -/
  extend : w.tables.Extends t
  /-- the frames that were free are free -/
  used_le : w.tables.used ≤ t.used
  /-- the roots translate as the plans promise -/
  translate_eq : ∀ r ∈ roots, ∀ va,
    w.tables.translate r va = .ok (Tables.promised F made r va)

/-- Nothing is promised under empty roots. -/
theorem Rooted.underway {w : Worksite F n} (h : space.Rooted w.tables low roots) :
    Underway w.tables low roots w [] := by
  refine ⟨h.forest, .refl _, Nat.le_refl _, fun r hr va => ?_⟩
  exact h.forest.translate_eq hr (.empty .top _ rfl (h.entryAt_eq r hr _))

/-- A plan with places, and frames for the tables that it lacks, is performed to its end. -/
theorem Underway.perform {t : Tables F n} {w : Worksite F n} {made : List (FrameId × Plan)}
    (h : Underway t low roots w made) (hplaced : F.Placed n t.base) {root : FrameId}
    (hr : root ∈ roots) {p : Plan} (hp : p.Sound F)
    (hfit : p.phys.toNat + p.span ≤ F.addressLimit)
    (hplace : ∀ j, j < p.steps → w.tables.HasPlace root p j)
    (hroom : t.lacking root p ≤ t.available) (said : Journal.Record) :
    ∃ es log, AddressSpace.perform root p said w = .ok () { w.perform es with log } ∧
      w.tables.Performs root p 0 p.steps es ∧ (w.tables.after es).Forest low roots ∧
      (w.tables.after es).used ≤ w.tables.used + w.tables.lacking root p ∧
      ∀ r ∈ roots, ∀ va, (w.tables.after es).translate r va =
        .ok (Tables.promised F (made ++ [(root, p)]) r va) := by
  have hlacking := Tables.lacking_le h.extend root p
  have hused := h.used_le
  have havailable : w.tables.lacking root p ≤ w.tables.available := by
    unfold Tables.available at hroom ⊢
    omega
  obtain ⟨es, hrun, hperforms, hforest, hless⟩ :=
    Builder.apply_ok h.forest hr (fun _ => h.extend.base_eq ▸ hplaced) hp hplace havailable
  exact ⟨es, _, Builder.bind_ok (Builder.mapCause_ok hrun _), hperforms, hforest, hless,
    fun r hr' va =>
      hperforms.translate_promised h.forest hforest hp hfit hr hr' (h.translate_eq r hr' va)⟩

/-- A plan of the top tier hands out no frame. -/
theorem Underway.perform_top {t : Tables F n} {w : Worksite F n} {made : List (FrameId × Plan)}
    (h : Underway t low roots w made) (hplaced : F.Placed n t.base) {root : FrameId}
    (hr : root ∈ roots) {p : Plan} (hp : p.Sound F) (htop : p.tier = .top)
    (hfit : p.phys.toNat + p.span ≤ F.addressLimit)
    (hplace : ∀ j, j < p.steps → w.tables.HasPlace root p j) (said : Journal.Record) :
    ∃ es log, AddressSpace.perform root p said w = .ok () { w.perform es with log } ∧
      w.tables.Performs root p 0 p.steps es ∧
      Underway t low roots { w.perform es with log } (made ++ [(root, p)]) := by
  -- A plan of the top tier lacks no table, however few frames are left.
  have hroom : t.lacking root p ≤ t.available := by
    rw [t.lacking_of_top root htop]
    exact Nat.zero_le _
  obtain ⟨es, log, hrun, hperforms, hforest, hused, htranslate⟩ :=
    h.perform hplaced hr hp hfit hplace hroom said
  rw [w.tables.lacking_of_top root htop, Nat.add_zero] at hused
  refine ⟨es, log, hrun, hperforms, hforest, ?_, Nat.le_trans hused h.used_le, htranslate⟩
  exact (hperforms.accepted.extends h.forest.regular).trans h.extend

/-- The window is performed last, and is mapped to the kernel. -/
theorem Underway.perform_window {t : Tables F n} {w : Worksite F n} {made : List (FrameId × Plan)}
    (h : Underway t low roots w made) (hplaced : F.Placed n t.base) {root : FrameId}
    (hr : root ∈ roots) {p : Plan} (hp : p.Sound F)
    (hfit : p.phys.toNat + p.span ≤ F.addressLimit)
    (hplace : ∀ j, j < p.steps → w.tables.HasPlace root p j)
    (hroom : t.lacking root p ≤ t.available) (said : Journal.Record) :
    ∃ w', AddressSpace.perform root p said w = .ok () w' ∧
      (∀ r ∈ roots, ∀ va, w'.tables.translate r va =
        .ok (Tables.promised F (made ++ [(root, p)]) r va)) ∧
      ∀ d < p.span, w'.tables.translate root (p.virt.offset (UInt64.ofNat d)) =
        .ok (some (p.phys.offset (UInt64.ofNat d))) := by
  obtain ⟨es, log, hrun, hperforms, hforest, -, htranslate⟩ :=
    h.perform hplaced hr hp hfit hplace hroom said
  have hmaps := hperforms.maps h.forest hforest hp hfit hr
  exact ⟨_, hrun, htranslate, hmaps.mapped⟩

/-- Plans that do not clash are all performed. The roots then translate as the plans promise, and the
window is mapped to the kernel. -/
theorem fill_translates {w : Worksite F n} (hrooted : space.Rooted w.tables low roots)
    (hplanned : layout.Planned w.tables space footprint kernel)
    (hplaced : F.Placed n w.tables.base)
    (hfit : ∀ m ∈ layout.jobs space, m.2.phys.toNat + m.2.span ≤ F.addressLimit)
    (hconsole : ∀ p ∈ layout.console.toList, ¬layout.identity.Clashes F p)
    (hwindow : space.selfMap = space.kernelMap →
      ∀ q ∈ layout.selfPlans, ¬q.Clashes F layout.window) :
    ∃ w', fill space footprint kernel layout w = .ok () w' ∧
      (∀ r ∈ roots, ∀ va, w'.tables.translate r va =
        .ok (Tables.promised F (layout.jobs space) r va)) ∧
      ∀ d < layout.window.span,
        w'.tables.translate space.kernelMap (layout.window.virt.offset (UInt64.ofNat d)) =
          .ok (some (layout.window.phys.offset (UInt64.ofNat d))) := by
  have hforest := hrooted.forest
  have hreg := hforest.regular
  have hself := hrooted.selfMap_mem
  have hkernel := hrooted.kernelMap_mem
  have hfitSelf : ∀ q ∈ layout.selfPlans, q.phys.toNat + q.span ≤ F.addressLimit := fun q hq =>
    hfit (space.selfMap, q) (List.mem_append_left _ (List.mem_map_of_mem hq))
  have hfitWindow := hfit (space.kernelMap, layout.window)
    (List.mem_append_right _ (List.mem_singleton.mpr rfl))
  obtain ⟨⟨hidentity, htop⟩, hsound⟩ :=
    List.forall_mem_cons.mp (hplanned.self_sound hforest hself)
  obtain ⟨hfitIdentity, hfitConsole⟩ := List.forall_mem_cons.mp hfitSelf
  obtain ⟨hwindowSound, hadmits, hroom⟩ := hplanned.window_affords hforest hkernel
  have hplaceIdentity := (hforest.planIdentity_ok hself hplanned.identity).1.admits
  -- The self-map is performed as planned, and leaves the places of the window.
  obtain ⟨es, log, hrun, hperforms, hunder⟩ := hrooted.underway.perform_top hplaced hself hidentity
    htop hfitIdentity (fun j hj => (hplaceIdentity j hj).hasPlace hreg)
    (selfMapped footprint layout.identity)
  have hplaceWindow := fun j hj => hperforms.hasPlace_of_clear hforest hunder.forest hself hkernel
    hidentity htop (fun hsame => hwindow hsame.symm layout.identity List.mem_cons_self) hj
    ((hadmits j hj).hasPlace hreg)
  unfold fill Layout.jobs Layout.selfPlans
  cases hc : layout.console with
  | none =>
    obtain ⟨w', hrun', htranslate, hmapped⟩ := hunder.perform_window hplaced hkernel hwindowSound
      hfitWindow hplaceWindow hroom (kernelMapped kernel layout.window)
    exact ⟨w', (Builder.bind_ok hrun).trans hrun', htranslate, hmapped⟩
  | some p =>
    have hp : p ∈ layout.console.toList := by rw [hc]; exact List.mem_singleton.mpr rfl
    obtain ⟨hpSound, hptop⟩ := hsound p hp
    have hplaceConsole := hplanned.console_admits hforest hself p hp
    -- The console registers are mapped next, and leave them too.
    obtain ⟨es', log', hrun', hperforms', hunder'⟩ := hunder.perform_top hplaced hself hpSound hptop
      (hfitConsole p hp)
      (fun j hj => hperforms.hasPlace_of_clear hforest hunder.forest hself hself hidentity htop
        (fun _ => hconsole p hp) hj ((hplaceConsole j hj).hasPlace hreg))
      (consoleMapped p)
    obtain ⟨w', hrun'', htranslate, hmapped⟩ := hunder'.perform_window hplaced hkernel hwindowSound
      hfitWindow (fun j hj => hperforms'.hasPlace_of_clear hunder.forest hunder'.forest hself hkernel
        hpSound hptop (fun hsame => hwindow hsame.symm p (List.mem_cons_of_mem _ hp)) hj
        (hplaceWindow j hj))
      hroom (kernelMapped kernel layout.window)
    exact ⟨w', (Builder.bind_ok hrun).trans ((Builder.bind_ok hrun').trans hrun''), htranslate,
      hmapped⟩

end Fill

end AddressSpace

end BootLoader.Paging
