import BootLoader.Proofs.Paging.Filling
import BootLoader.Proofs.Paging.Ranges

/-!
# What an address space translates

An address space that is constructed for canonical addresses, and for physical addresses that its
format can hold, does what it is for (`AddressSpace.Realizes`): the loader and its console registers
stay where they are, the kernel is found where it is linked, and nothing else is mapped
(`AddressSpace.realizes_assemble`). The plans were made for empty roots and are performed one after
the other; that none of them disturbs another one rests on the tests between their ranges, which are
sharp for canonical addresses (`Layout.Planned.console_not_clashes`,
`Layout.Planned.window_not_clashes`).
-/

namespace BootLoader.Paging

variable {F : Format} {n : Nat}

/-- Whether the roots of an address space translate as they are to. -/
structure AddressSpace.Realizes (space : AddressSpace) (t : Tables F n) (footprint : Footprint)
    (kernel : Region) : Prop where
  /-- the loader stays where it is -/
  loader_eq : ∀ pa : PhysAddr, footprint.start.toNat ≤ pa.toNat → pa.toNat < footprint.limit.toNat →
    t.translate space.selfMap pa.identityMapped = .ok (some pa)
  /-- the console registers stay where they are -/
  console_eq : ∀ base ∈ footprint.console, ∀ pa : PhysAddr, base.toNat ≤ pa.toNat →
    pa.toNat < base.toNat + pageSize →
    t.translate space.selfMap pa.identityMapped = .ok (some pa)
  /-- the kernel is found where it is linked -/
  kernel_eq : ∀ pa : PhysAddr, kernel.physStart.toNat ≤ pa.toNat →
    pa.toNat < kernel.physEnd.toNat →
    t.translate space.kernelMap (kernel.toVirt pa) = .ok (some pa)
  /-- the entry point leads to the byte of the kernel that is linked there -/
  entry_eq : ∃ pa : PhysAddr, kernel.physStart.toNat ≤ pa.toNat ∧
    pa.toNat < kernel.physEnd.toNat ∧ kernel.toVirt pa = kernel.virtEntry ∧
    t.translate space.kernelMap kernel.virtEntry = .ok (some pa)
  /-- what is congruent to the ranges of a root is mapped under it, and nothing else -/
  domain_iff : ∀ r, r = space.selfMap ∨ r = space.kernelMap → ∀ va : VirtAddr,
    (∃ pa, t.translate r va = .ok (some pa)) ↔ ∃ a, a % F.coverage = va.toNat % F.coverage ∧
      ((r = space.selfMap ∧ footprint.Covers F a) ∨ (r = space.kernelMap ∧ KernelCovers F kernel a))

/-! ## What plans promise together -/

namespace Tables

/-- An address is mapped when it is in the range of one of the plans for the root. -/
theorem promised_isSome_iff {made : List (FrameId × Plan)} {r : FrameId} {va : VirtAddr} :
    (∃ pa, promised F made r va = some pa) ↔
      ∃ m ∈ made, m.1 = r ∧ m.2.reach F va < m.2.span := by
  rw [← Option.isSome_iff_exists]
  unfold promised
  rw [List.findSome?_isSome_iff]
  refine exists_congr fun m => and_congr_right fun _ => ?_
  unfold Plan.image
  by_cases hr : m.1 = r
  · rw [if_pos hr, Option.isSome_ite, and_iff_right hr]
  · rw [if_neg hr]
    exact iff_of_false Bool.false_ne_true fun h => hr h.1

/-- Where plans of a self-map map a low address, they map it to itself, whatever is promised by other
plans after them. -/
theorem promised_self {plans : List Plan} (hself : ∀ p ∈ plans, p.IsSelf F) (root : FrameId)
    (made : List (FrameId × Plan)) {pa : PhysAddr} (hpa : ∃ p ∈ plans, p.Covers pa.toNat) :
    promised F (plans.map (root, ·) ++ made) root pa.identityMapped = some pa := by
  obtain ⟨p, hp, hcovers⟩ := hpa
  have hlow := (hself p hp).lt_coverage hcovers
  have hsome : ∃ pa', promised F (plans.map (root, ·)) root pa.identityMapped = some pa' := by
    refine promised_isSome_iff.mpr ⟨(root, p), List.mem_map_of_mem hp, rfl, ?_⟩
    exact (hself p hp).sound.reach_lt_iff.mpr ⟨pa.toNat, rfl, hcovers⟩
  obtain ⟨pa', hpromised⟩ := hsome
  obtain ⟨m, hm, himage⟩ := List.exists_of_findSome?_eq_some hpromised
  obtain ⟨q, hq, rfl⟩ := List.mem_map.mp hm
  rw [if_pos rfl] at himage
  obtain rfl : pa' = pa := (hself q hq).image_eq hlow himage
  have hfirst : promised F (plans.map (root, ·) ++ made) root pa'.identityMapped =
      (promised F (plans.map (root, ·)) root pa'.identityMapped).or
        (promised F made root pa'.identityMapped) := List.findSome?_append
  rw [hfirst, hpromised, Option.some_or]

end Tables

/-! ## Plans that do not clash -/

section Planned

variable {t : Tables F n} {low : FrameId} {roots : List FrameId} {layout : Layout}
  {space : AddressSpace} {footprint : Footprint} {kernel : Region}

/-- The console registers do not clash with the loader. -/
theorem Layout.Planned.console_not_clashes (h : layout.Planned t space footprint kernel)
    (hisSelf : ∀ p ∈ layout.selfPlans, p.IsSelf F) :
    ∀ p ∈ layout.console.toList, ¬layout.identity.Clashes F p := by
  intro p hp
  obtain ⟨hidentity, hconsole⟩ := List.forall_mem_cons.mp hisSelf
  obtain ⟨-, -, hapart, -⟩ := h.console.eq_planIdentity hp
  refine Plan.not_clashes hidentity.sound hidentity.top (hconsole p hp).sound ?_
    fun hconflicts => hapart hconflicts.1
  -- Low addresses are below the coverage, so they are equal when they are congruent.
  intro a b ha hb hmod
  rwa [Nat.mod_eq_of_lt (hidentity.lt_coverage ha),
    Nat.mod_eq_of_lt ((hconsole p hp).lt_coverage hb)] at hmod

/-- The window is at canonical addresses. -/
theorem Layout.Planned.window_canonical (h : layout.Planned t space footprint kernel)
    (hforest : t.Forest low roots) (hroot : space.kernelMap ∈ roots)
    (hkernel : kernel.isConsistent = true) (hfits : AddressSpace.Fits F footprint kernel) {a : Nat}
    (ha : layout.window.Covers a) : F.IsCanonical a := by
  obtain ⟨tier, -, b, hle, hlt, hblock⟩ := (h.window_covers_iff hforest hroot hkernel).mp ha
  exact Format.canonical_of_block tier hblock (hfits.kernel_canonical b hle hlt)

/-- Under a shared root, the window clashes with no plan of the self-map. -/
theorem Layout.Planned.window_not_clashes (h : layout.Planned t space footprint kernel)
    (hrooted : space.Rooted t low roots) (hkernel : kernel.isConsistent = true)
    (hfits : AddressSpace.Fits F footprint kernel)
    (hisSelf : ∀ p ∈ layout.selfPlans, p.IsSelf F) (hsame : space.selfMap = space.kernelMap) :
    ∀ q ∈ layout.selfPlans, ¬q.Clashes F layout.window := by
  intro q hq
  have hforest := hrooted.forest
  have hroot := hrooted.kernelMap_mem
  have hwindow := (h.window_affords hforest hroot).sound
  refine Plan.not_clashes (hisSelf q hq).sound (hisSelf q hq).top hwindow ?_ (h.apart hsame q hq)
  intro a b ha hb hmod
  have hlow : a < F.lowLimit := Nat.lt_of_lt_of_le ha.2 (hisSelf q hq).low
  have hword : b < wordCount := Nat.lt_of_lt_of_le hb.2 hwindow.virt_end
  have hcanonical := h.window_canonical hforest hroot hkernel hfits hb
  exact Format.eq_of_canonical (hrooted.shared hsame) hlow hcanonical hword hmod

/-- The physical range of the window is where an entry can point. -/
theorem Layout.Planned.window_end (h : layout.Planned t space footprint kernel)
    (hforest : t.Forest low roots) (hroot : space.kernelMap ∈ roots)
    (hkernel : kernel.isConsistent = true) (hfits : AddressSpace.Fits F footprint kernel) :
    layout.window.phys.toNat + layout.window.span ≤ F.addressLimit := by
  obtain ⟨hafford, hvirt, hphys, -, hsteps, -⟩ := hforest.plan_ok hroot h.window
  obtain ⟨hphysEnd, -⟩ := Region.isConsistent_iff.mp hkernel
  have hend : kernel.physStart.toNat + kernel.size.toNat ≤ F.addressLimit :=
    hphysEnd ▸ hfits.kernel_end
  exact Call.span_le_of_fits
    (c := .mapMemory kernel.virtStart kernel.physStart kernel.size .normal)
    ⟨hvirt, hphys, hsteps⟩ hend hafford.sound

/-- The physical ranges of all plans are where an entry can point. -/
theorem Layout.Planned.jobs_end (h : layout.Planned t space footprint kernel)
    (hforest : t.Forest low roots) (hroot : space.kernelMap ∈ roots)
    (hkernel : kernel.isConsistent = true) (hfits : AddressSpace.Fits F footprint kernel)
    (hisSelf : ∀ p ∈ layout.selfPlans, p.IsSelf F) :
    ∀ m ∈ layout.jobs space, m.2.phys.toNat + m.2.span ≤ F.addressLimit := by
  intro m hm
  rcases List.mem_append.mp hm with hm | hm
  · obtain ⟨p, hp, rfl⟩ := List.mem_map.mp hm
    exact (hisSelf p hp).phys_end
  · obtain rfl := List.mem_singleton.mp hm
    exact h.window_end hforest hroot hkernel hfits

/-- The plans together promise what is congruent to the ranges of a root, and nothing else. -/
theorem Layout.Planned.promised_iff (h : layout.Planned t space footprint kernel)
    (hrooted : space.Rooted t low roots) (hkernel : kernel.isConsistent = true)
    (hfits : AddressSpace.Fits F footprint kernel) (r : FrameId) (va : VirtAddr) :
    (∃ pa, Tables.promised F (layout.jobs space) r va = some pa) ↔
      ∃ a, a % F.coverage = va.toNat % F.coverage ∧
        ((r = space.selfMap ∧ footprint.Covers F a) ∨
          (r = space.kernelMap ∧ KernelCovers F kernel a)) := by
  have hforest := hrooted.forest
  have hisSelf := h.self_isSelf hforest hrooted.selfMap_mem hfits
  have hself {a : Nat} := h.self_covers_iff hforest hrooted.selfMap_mem hfits (a := a)
  have hwindow {a : Nat} := h.window_covers_iff hforest hrooted.kernelMap_mem hkernel (a := a)
  have hsound := (h.window_affords hforest hrooted.kernelMap_mem).sound
  rw [Tables.promised_isSome_iff]
  unfold jobs
  constructor
  · rintro ⟨m, hm, rfl, hreach⟩
    rcases List.mem_append.mp hm with hm | hm
    · obtain ⟨p, hp, rfl⟩ := List.mem_map.mp hm
      obtain ⟨a, hmod, ha⟩ := (hisSelf p hp).sound.reach_lt_iff.mp hreach
      exact ⟨a, hmod, .inl ⟨rfl, hself.mp ⟨p, hp, ha⟩⟩⟩
    · obtain rfl := List.mem_singleton.mp hm
      obtain ⟨a, hmod, ha⟩ := hsound.reach_lt_iff.mp hreach
      exact ⟨a, hmod, .inr ⟨rfl, hwindow.mp ha⟩⟩
  · rintro ⟨a, hmod, ⟨rfl, ha⟩ | ⟨rfl, ha⟩⟩
    · obtain ⟨p, hp, hcovers⟩ := hself.mpr ha
      exact ⟨(space.selfMap, p), List.mem_append_left _ (List.mem_map_of_mem hp), rfl,
        (hisSelf p hp).sound.reach_lt_iff.mpr ⟨a, hmod, hcovers⟩⟩
    · exact ⟨(space.kernelMap, layout.window),
        List.mem_append_right _ (List.mem_singleton.mpr rfl), rfl,
        hsound.reach_lt_iff.mpr ⟨a, hmod, hwindow.mpr ha⟩⟩

end Planned

namespace AddressSpace

/-- Plans for canonical addresses are performed to their ends, and the roots then translate as they
are to. -/
theorem realizes_fill {w : Worksite F n} {low : FrameId} {roots : List FrameId} {layout : Layout}
    {space : AddressSpace} {footprint : Footprint} {kernel : Region}
    (hrooted : space.Rooted w.tables low roots)
    (hplanned : layout.Planned w.tables space footprint kernel)
    (hplaced : F.Placed n w.tables.base) (hkernel : kernel.isConsistent = true)
    (hfits : Fits F footprint kernel) :
    ∃ w', fill space footprint kernel layout w = .ok () w' ∧
      space.Realizes w'.tables footprint kernel := by
  have hforest := hrooted.forest
  have hself := hrooted.selfMap_mem
  have hroot := hrooted.kernelMap_mem
  have hisSelf := hplanned.self_isSelf hforest hself hfits
  have hend := hplanned.jobs_end hforest hroot hkernel hfits hisSelf
  obtain ⟨w', hrun, htranslate, hmapped⟩ := fill_translates hrooted hplanned hplaced hend
    (hplanned.console_not_clashes hisSelf)
    (hplanned.window_not_clashes hrooted hkernel hfits hisSelf)
  refine ⟨w', hrun, ?_⟩
  -- Every address of the self-map leads to itself.
  have hstays : ∀ pa : PhysAddr, footprint.Covers F pa.toNat →
      w'.tables.translate space.selfMap pa.identityMapped = .ok (some pa) := by
    intro pa hpa
    have hcovers := (hplanned.self_covers_iff hforest hself hfits).mpr hpa
    rw [htranslate _ hself]
    exact congrArg _ (Tables.promised_self hisSelf space.selfMap _ hcovers)
  -- The bytes of the kernel are in the window, at the same distance from the start.
  obtain ⟨hphysEnd, hvirtEnd, -, hentry, hlimit⟩ := Region.isConsistent_iff.mp hkernel
  obtain ⟨hafford, hvirt, hphys, -, hsteps, -⟩ := hforest.plan_ok hroot hplanned.window
  have hbytes : ∀ d, d < kernel.size.toNat →
      w'.tables.translate space.kernelMap (kernel.virtStart.offset (UInt64.ofNat d)) =
        .ok (some (kernel.physStart.offset (UInt64.ofNat d))) := by
    intro d hd
    rw [← hvirt, ← hphys]
    exact hmapped d (Nat.lt_of_lt_of_le hd (hafford.sound.span_bounds hsteps).1)
  constructor
  · intro pa hle hlt
    exact hstays pa (hfits.covers_loader hle hlt)
  · intro base hbase pa hle hlt
    exact hstays pa (hfits.covers_console hbase hle hlt)
  · intro pa hle hlt
    have htranslated := hbytes (pa.toNat - kernel.physStart.toNat) (by omega)
    rwa [← Region.toVirt_offset hkernel, Address.offset_sub hle] at htranslated
  · have htranslated := hbytes (kernel.virtEntry.toNat - kernel.virtStart.toNat) (by omega)
    rw [Address.offset_sub hentry] at htranslated
    have hword := kernel.physEnd.toNat_lt
    have hat : (kernel.physStart.offset
        (UInt64.ofNat (kernel.virtEntry.toNat - kernel.virtStart.toNat))).toNat =
          kernel.physStart.toNat + (kernel.virtEntry.toNat - kernel.virtStart.toNat) :=
      Address.toNat_offset_ofNat (by omega)
    refine ⟨_, by omega, by omega, ?_, htranslated⟩
    rw [Region.toVirt_offset hkernel, Address.offset_sub hentry]
  · rintro r hr va
    have hmem : r ∈ roots := by
      rcases hr with rfl | rfl
      · exact hself
      · exact hroot
    rw [htranslate r hmem, ← hplanned.promised_iff hrooted hkernel hfits]
    simp only [Except.ok.injEq]

/-- On any storage that can be reached, an address space that is constructed for canonical addresses,
and for physical addresses that an entry can hold, translates as it is to. -/
theorem realizes_assemble {w w' : Worksite F n} (ht : w.tables.Reachable)
    (hplaced : F.Placed n w.tables.base) {footprint : Footprint} {kernel : Region}
    (hfits : Fits F footprint kernel) {space : AddressSpace}
    (hrun : assemble footprint kernel w = .ok space w') :
    space.Realizes w'.tables footprint kernel := by
  rcases prepare_cases ht.regular footprint kernel with
    ⟨count, stop, log, herr⟩ | ⟨made, layout, count, roots, log, hok, hkernel, hrooted, hplanned⟩
  · rw [show assemble footprint kernel w = .error stop _ from Builder.bind_error herr] at hrun
    cases hrun
  · -- Handing out the roots leaves the frames where they are.
    have hbase : F.Placed n (w.tables.after (rootEdits count)).base :=
      (Tables.base_after w.tables (rootEdits count)).symm ▸ hplaced
    obtain ⟨filled, hfill, hrealizes⟩ := realizes_fill
      (w := { w.perform (rootEdits count) with log }) hrooted hplanned hbase hkernel hfits
    have hmade : assemble footprint kernel w = .ok made filled :=
      (Builder.bind_ok hok).trans (Builder.bind_ok hfill)
    rw [hmade] at hrun
    cases hrun
    exact hrealizes

/-- An ordinary boot with three levels is constructed, and translates as it is to. -/
theorem realizes_assemble_sv39 :
    let footprint : Footprint := ⟨⟨0x80200000⟩, ⟨0x80234000⟩, some ⟨0x10000000⟩⟩
    let kernel : Region := .place 0x80400000 0x80600000 0xffffffc080200000 0xffffffc080201000
    let w : Worksite .sv39 4 := { tables := .empty .sv39 4 ⟨0x80300000⟩ }
    ∃ w', assemble footprint kernel w = .ok ⟨0, 0⟩ w' ∧
      AddressSpace.Realizes ⟨0, 0⟩ w'.tables footprint kernel := by
  intro footprint kernel w
  have hplaced : Format.Placed .sv39 4 w.tables.base := ⟨by decide, by decide⟩
  have hloader : (footprint.limit.alignUp (Format.levelShift .sv39 0)).toNat ≤
      Format.lowLimit .sv39 := by decide +kernel
  have hlinked : wordCount - Format.lowLimit .sv39 ≤ kernel.virtStart.toNat := by decide +kernel
  have hfits : Fits .sv39 footprint kernel := by
    constructor
    · exact fun a ha => .inl (Nat.lt_of_lt_of_le ha.2 hloader)
    · decide
    · decide
    · rintro base ⟨⟩ d hd
      have hpage : Format.lowLimit .sv39 = 0x4000000000 ∧ pageSize = 4096 := ⟨rfl, rfl⟩
      have hbase : (⟨0x10000000⟩ : PhysAddr).toNat = 0x10000000 := rfl
      exact .inl (by omega)
    · decide
    · exact fun a hle _ => .inr ⟨by decide, Nat.le_trans hlinked hle⟩
    · decide
  have hmade : (assemble footprint kernel).run' w = some ⟨0, 0⟩ := by decide +kernel
  unfold EStateM.run' EStateM.run at hmade
  cases hrun : assemble footprint kernel w with
  | ok space w' =>
    rw [hrun] at hmade
    obtain rfl : space = ⟨0, 0⟩ := Option.some.inj hmade
    exact ⟨w', rfl, realizes_assemble (.empty _) hplaced hfits hrun⟩
  | error stop w' =>
    rw [hrun] at hmade
    cases hmade

end AddressSpace

end BootLoader.Paging
