import BootLoader.Proofs.Image.Region
import BootLoader.Proofs.Paging.Canonical
import BootLoader.Proofs.Paging.Refinement

/-!
# The ranges of an address space

The self-map covers the loader and its console page, rounded outwards to the granules of the root; a
console page that needs no plan of its own is in the range of the loader
(`Layout.Planned.self_covers_iff`). The window covers the granules that the kernel touches
(`Layout.Planned.window_covers_iff`). When all these addresses are canonical and an entry can hold the
physical ones (`AddressSpace.Fits`), the self-map lies among the addresses that start at zero
(`Plan.IsSelf`).
-/

namespace BootLoader.Paging

variable {F : Format} {n : Nat}

namespace Format

/-- Whether `a` is an address of the range from `start` to `limit`, rounded outwards to granules of
the root. -/
def Outward (F : Format) (start limit : PhysAddr) (a : Nat) : Prop :=
  (start.alignDown (F.levelShift 0)).toNat ≤ a ∧ a < (limit.alignUp (F.levelShift 0)).toNat

/-- A range that is rounded outwards consists of granules. -/
theorem Outward.of_block {start limit : PhysAddr} {a b : Nat} (h : F.Outward start limit a)
    (hblock : a / F.levelSize 0 = b / F.levelSize 0) : F.Outward start limit b := by
  have hshift := F.levelShift_le 0
  have hdown : F.levelSize 0 ∣ (start.alignDown (F.levelShift 0)).toNat := by
    rw [Address.toNat_alignDown hshift, F.levelSize_eq]
    exact Nat.dvd_mul_left _ _
  have hup : F.levelSize 0 ∣ (limit.alignUp (F.levelShift 0)).toNat := by
    rw [F.levelSize_eq]
    exact Nat.dvd_of_mod_eq_zero (Address.alignUp_aligned hshift)
  refine ⟨le_of_div_eq hdown hblock h.1, Nat.lt_of_not_le fun hle => ?_⟩
  exact Nat.not_le_of_lt h.2 (le_of_div_eq hup hblock.symm hle)

/-- A page ends where its granule ends, at the latest. -/
theorem mod_add_pageSize_le (F : Format) {b : Nat} (h : b % pageSize = 0) :
    b % F.levelSize 0 + pageSize ≤ F.levelSize 0 := by
  obtain ⟨k, hk⟩ := F.pageSize_dvd_levelSize 0
  have hlt := Nat.mod_lt b (F.levelSize_pos 0)
  have hmod : b % F.levelSize 0 % pageSize = 0 := by rw [Nat.mod_mod_of_dvd _ ⟨k, hk⟩, h]
  obtain ⟨j, hj⟩ := Nat.dvd_of_mod_eq_zero hmod
  rw [hj, hk] at hlt ⊢
  rw [← Nat.mul_succ]
  exact Nat.mul_le_mul_left _ (Nat.lt_of_mul_lt_mul_left hlt)

/-- The bytes of a page are in one granule. -/
theorem div_eq_of_page {a b : Nat} (h : b % pageSize = 0) (hle : b ≤ a) (hlt : a < b + pageSize) :
    a / F.levelSize 0 = b / F.levelSize 0 := by
  have hinside := F.mod_add_pageSize_le h
  have hsplit := Nat.div_add_mod' b (F.levelSize 0)
  rw [Nat.div_eq_iff (F.levelSize_pos 0)]
  omega

/-- A page, rounded outwards, is the granule that holds it. -/
theorem outward_page {base : PhysAddr} (haligned : base.toNat % pageSize = 0)
    (hend : base.toNat + pageSize ≤ F.addressLimit) {a : Nat} :
    F.Outward base (base.offset (UInt64.ofNat pageSize)) a ↔
      a / F.levelSize 0 = base.toNat / F.levelSize 0 := by
  have hpos := F.levelSize_pos 0
  have hinside := F.mod_add_pageSize_le haligned
  have hlimit : (base.offset (UInt64.ofNat pageSize)).toNat = base.toNat + pageSize := by
    have hroom := F.addressLimit_add_levelSize_le
    exact Address.toNat_offset_ofNat (by omega)
  -- Rounding the end up gives the end of the granule that holds the page.
  have hup : (base.toNat + pageSize + (F.levelSize 0 - 1)) / F.levelSize 0 =
      base.toNat / F.levelSize 0 + 1 := by
    have hsplit := Nat.div_add_mod base.toNat (F.levelSize 0)
    have hpage : 0 < pageSize := by decide
    rw [Nat.div_eq_iff hpos, Nat.add_mul, Nat.mul_comm]
    omega
  unfold Outward
  rw [Address.toNat_alignDown (F.levelShift_le 0), ← F.levelSize_eq,
    toNat_alignUp_root (by rwa [hlimit]), hlimit, hup, Nat.div_eq_iff hpos, Nat.add_mul]
  omega

end Format

/-- Whether `a` is an address of the loader or of its console page, rounded outwards. -/
def Footprint.Covers (F : Format) (f : Footprint) (a : Nat) : Prop :=
  F.Outward f.start f.limit a ∨
    ∃ base ∈ f.console, F.Outward base (base.offset (UInt64.ofNat pageSize)) a

/-- Whether `a` is an address of a granule that the virtual range of a kernel touches. The granules
are the largest to which both ranges are aligned. -/
def KernelCovers (F : Format) (kernel : Region) (a : Nat) : Prop :=
  ∃ tier, F.selectTier kernel.virtStart kernel.physStart = some tier ∧
    ∃ b, kernel.virtStart.toNat ≤ b ∧ b < kernel.virtEnd.toNat ∧
      a / F.levelSize tier.level = b / F.levelSize tier.level

/-- Whether the addresses of a loader and of a kernel are canonical, and an entry can hold the physical
ones. -/
structure AddressSpace.Fits (F : Format) (footprint : Footprint) (kernel : Region) : Prop where
  /-- the rounded loader is at canonical addresses -/
  loader_canonical : ∀ a, F.Outward footprint.start footprint.limit a → F.IsCanonical a
  /-- the loader is where an entry can point -/
  loader_end : footprint.limit.toNat ≤ F.addressLimit
  /-- the console registers are a page -/
  console_aligned : ∀ base ∈ footprint.console, base.toNat % pageSize = 0
  /-- the page is at canonical addresses -/
  console_canonical : ∀ base ∈ footprint.console, ∀ d < pageSize, F.IsCanonical (base.toNat + d)
  /-- the page is where an entry can point -/
  console_end : ∀ base ∈ footprint.console, base.toNat + pageSize ≤ F.addressLimit
  /-- the kernel is linked at canonical addresses -/
  kernel_canonical : ∀ a, kernel.virtStart.toNat ≤ a → a < kernel.virtEnd.toNat → F.IsCanonical a
  /-- the kernel lies where an entry can point -/
  kernel_end : kernel.physEnd.toNat ≤ F.addressLimit

namespace AddressSpace.Fits

variable {footprint : Footprint} {kernel : Region}

/-- The loader is in its range, rounded outwards. -/
theorem covers_loader (h : Fits F footprint kernel) {a : Nat} (hle : footprint.start.toNat ≤ a)
    (hlt : a < footprint.limit.toNat) : footprint.Covers F a := by
  have hshift := F.levelShift_le 0
  have hend := h.loader_end
  have hroom := F.addressLimit_add_levelSize_le
  have hpos := F.levelSize_pos 0
  rw [F.levelSize_eq] at hroom hpos
  exact .inl ⟨Nat.le_trans (Address.alignDown_le _ hshift) hle,
    Nat.lt_of_lt_of_le hlt (Address.le_alignUp hshift (by omega))⟩

/-- The console page is in its range, rounded outwards. -/
theorem covers_console (h : Fits F footprint kernel) {base : PhysAddr}
    (hbase : base ∈ footprint.console) {a : Nat} (hle : base.toNat ≤ a)
    (hlt : a < base.toNat + pageSize) : footprint.Covers F a := by
  have haligned := h.console_aligned base hbase
  exact .inr ⟨base, hbase, (Format.outward_page haligned (h.console_end base hbase)).mpr
    (Format.div_eq_of_page haligned hle hlt)⟩

end AddressSpace.Fits

namespace Plan

variable {p q : Plan}

/-- Ranges that meet have an address in common. -/
theorem Meets.exists_covers (h : p.Meets q) (hp : p.Sound F) (hq : q.Sound F) :
    ∃ a, p.Covers a ∧ q.Covers a := by
  have hposP := hp.span_pos
  have hposQ := hq.span_pos
  obtain ⟨hleft, hright⟩ := h
  rcases Nat.le_total p.virt.toNat q.virt.toNat with hle | hle
  · exact ⟨q.virt.toNat, ⟨hle, hright⟩, Nat.le_refl _, by omega⟩
  · exact ⟨p.virt.toNat, ⟨Nat.le_refl _, by omega⟩, hle, hleft⟩

/-- A plan with as many leaves as it takes to cover the size covers it, without a leaf too many. -/
theorem Sound.span_bounds (h : p.Sound F) {size : Nat}
    (hsteps : p.steps = (size + (p.granule - 1)) / p.granule) :
    size ≤ p.span ∧ p.span < size + p.granule := by
  have hpos := h.granule_pos
  have hmod := Nat.mod_lt (size + (p.granule - 1)) hpos
  have hsplit := Nat.div_add_mod' (size + (p.granule - 1)) p.granule
  unfold span
  rw [hsteps]
  omega

/-- Such a plan covers the granules that the range touches. -/
theorem Sound.covers_iff_block (h : p.Sound F) {size : Nat}
    (hsteps : p.steps = (size + (p.granule - 1)) / p.granule) {a : Nat} :
    p.Covers a ↔
      ∃ b, p.virt.toNat ≤ b ∧ b < p.virt.toNat + size ∧ a / p.granule = b / p.granule := by
  have hpos := h.granule_pos
  have hstart := Nat.dvd_of_mod_eq_zero h.virt_aligned
  have hspan : p.granule ∣ p.span := Nat.dvd_mul_left _ _
  obtain ⟨hcover, hless⟩ := h.span_bounds hsteps
  constructor
  · rintro ⟨hle, hlt⟩
    -- The granule starts in the range: it starts below the end of the last leaf.
    have hdiv := Nat.div_add_mod' a p.granule
    have hmod := Nat.mod_lt a hpos
    refine ⟨a / p.granule * p.granule, ?_, ?_, (Nat.mul_div_cancel _ hpos).symm⟩
    · exact Format.le_of_div_eq hstart (Nat.mul_div_cancel _ hpos).symm hle
    · have hend : a / p.granule * p.granule + p.granule ≤ p.virt.toNat + p.span := by
        obtain ⟨k, hk⟩ := Nat.dvd_add hstart hspan
        rw [hk] at hlt ⊢
        rw [← Nat.succ_mul, Nat.mul_comm p.granule k]
        exact Nat.mul_le_mul_right _ (Nat.div_lt_of_lt_mul hlt)
      omega
  · rintro ⟨b, hle, hlt, hblock⟩
    refine ⟨Format.le_of_div_eq hstart hblock.symm hle, Nat.lt_of_not_le fun hge => ?_⟩
    have hbad := Format.le_of_div_eq (Nat.dvd_add hstart hspan) hblock hge
    omega

/-- A plan that maps low addresses to themselves, with leaves of the top tier. -/
structure IsSelf (F : Format) (p : Plan) : Prop where
  /-- the plan has the form of an outline -/
  sound : p.Sound F
  /-- its leaves are in the root -/
  top : p.tier = .top
  /-- it maps addresses to themselves -/
  virt_eq : p.virt.toNat = p.phys.toNat
  /-- its addresses are those that start at zero -/
  low : p.virt.toNat + p.span ≤ F.lowLimit

namespace IsSelf

/-- The addresses of a plan of a self-map are below the coverage. -/
theorem lt_coverage (h : p.IsSelf F) {a : Nat} (ha : p.Covers a) : a < F.coverage := by
  calc a < p.virt.toNat + p.span := ha.2
    _ ≤ F.lowLimit := h.low
    _ ≤ F.coverage := F.lowLimit_le_coverage

/-- The physical range of a plan of a self-map is where an entry can point. -/
theorem phys_end (h : p.IsSelf F) : p.phys.toNat + p.span ≤ F.addressLimit := by
  calc p.phys.toNat + p.span = p.virt.toNat + p.span := by rw [h.virt_eq]
    _ ≤ F.lowLimit := h.low
    _ ≤ F.addressLimit := F.lowLimit_le_addressLimit

/-- A low address that a plan of a self-map maps is mapped to itself. -/
theorem image_eq (h : p.IsSelf F) {pa pa' : PhysAddr} (hpa : pa.toNat < F.coverage)
    (himage : p.image F pa.identityMapped = some pa') : pa' = pa := by
  unfold image at himage
  rw [Option.ite_none_right_eq_some] at himage
  obtain ⟨hlt, heq⟩ := himage
  have hmod := add_reach F p pa.identityMapped
  have hcovers : p.Covers (p.virt.toNat + p.reach F pa.identityMapped) := ⟨by omega, by omega⟩
  rw [Nat.mod_eq_of_lt (h.lt_coverage hcovers), Address.toNat_identityMapped,
    Nat.mod_eq_of_lt hpa] at hmod
  have hend := h.sound.phys_end
  have hvirt := h.virt_eq
  apply Address.eq_of_toNat
  rw [← Option.some.inj heq, Address.toNat_offset_ofNat (by omega)]
  omega

end IsSelf

end Plan

section Planned

variable {t : Tables F n} {low : FrameId} {roots : List FrameId} {root : FrameId}

/-- A plan for an identity mapping covers the requested range, rounded outwards. -/
theorem Tables.Forest.planIdentity_covers_iff (h : t.Forest low roots) (hr : root ∈ roots)
    {start limit : PhysAddr} {memory : Memory} {p : Plan}
    (hplan : t.planIdentity root start limit memory = .ok p) {a : Nat} :
    p.Covers a ↔ F.Outward start limit a := by
  obtain ⟨-, -, -, hphys, hvirt, hend⟩ := h.planIdentity_ok hr hplan
  unfold Plan.Covers Format.Outward
  rw [hvirt, Address.toNat_identityMapped, hend, hphys]

/-- A plan for an identity mapping of canonical addresses that an entry can hold maps low addresses
to themselves. -/
theorem Tables.Forest.planIdentity_isSelf (h : t.Forest low roots) (hr : root ∈ roots)
    {start limit : PhysAddr} {memory : Memory} {p : Plan}
    (hplan : t.planIdentity root start limit memory = .ok p)
    (hcanonical : ∀ a, F.Outward start limit a → F.IsCanonical a)
    (hlimit : limit.toNat ≤ F.addressLimit) : p.IsSelf F := by
  obtain ⟨hafford, htop, -, hphys, hvirt, hend⟩ := h.planIdentity_ok hr hplan
  have hsound := hafford.sound
  have heq : p.virt.toNat = p.phys.toNat := by rw [hvirt, Address.toNat_identityMapped]
  refine ⟨hsound, htop, heq, ?_⟩
  have hfit : p.phys.toNat + p.span ≤ F.addressLimit :=
    Call.span_le_of_fits (c := .mapIdentity start limit) ⟨hphys, hvirt, hend⟩ hlimit hsound
  have hpos := hsound.span_pos
  -- The last byte is canonical, and not at the other end of the address space.
  have hlast : p.Covers (p.virt.toNat + p.span - 1) := ⟨by omega, by omega⟩
  rw [h.planIdentity_covers_iff hr hplan] at hlast
  have hlow := Format.lt_lowLimit (hcanonical _ hlast) (by omega)
  omega

variable {layout : Layout} {space : AddressSpace} {footprint : Footprint} {kernel : Region}

/-- The plans of the self-map map low addresses to themselves. -/
theorem Layout.Planned.self_isSelf (h : layout.Planned t space footprint kernel)
    (hforest : t.Forest low roots) (hself : space.selfMap ∈ roots)
    (hfits : AddressSpace.Fits F footprint kernel) : ∀ p ∈ layout.selfPlans, p.IsSelf F := by
  refine List.forall_mem_cons.mpr ⟨?_, fun p hp => ?_⟩
  · exact hforest.planIdentity_isSelf hself h.identity hfits.loader_canonical hfits.loader_end
  obtain ⟨base, hbase, -, hplan⟩ := h.console.eq_planIdentity hp
  have hend := hfits.console_end base hbase
  have haligned := hfits.console_aligned base hbase
  have hlimit : (base.offset (UInt64.ofNat pageSize)).toNat ≤ F.addressLimit := by
    have hroom := F.addressLimit_add_levelSize_le
    have hpos := F.levelSize_pos 0
    rwa [Address.toNat_offset_ofNat (by omega)]
  refine hforest.planIdentity_isSelf hself hplan (fun a ha => ?_) hlimit
  rw [Format.outward_page haligned hend] at ha
  exact Format.canonical_of_block .top ha (hfits.console_canonical base hbase 0 (by decide))

/-- The self-map covers the loader and its console page, rounded outwards. -/
theorem Layout.Planned.self_covers_iff (h : layout.Planned t space footprint kernel)
    (hforest : t.Forest low roots) (hself : space.selfMap ∈ roots)
    (hfits : AddressSpace.Fits F footprint kernel) {a : Nat} :
    (∃ p ∈ layout.selfPlans, p.Covers a) ↔ footprint.Covers F a := by
  have hloader {a : Nat} := hforest.planIdentity_covers_iff hself h.identity (a := a)
  have hconsole := h.console
  unfold Layout.selfPlans Footprint.Covers
  simp only [List.mem_cons, Option.mem_toList, exists_eq_or_imp, hloader]
  refine or_congr_right' fun hout => ?_
  -- Outside the range of the loader, what is covered is the console page.
  cases hf : footprint.console with
  | none =>
    rw [hf] at hconsole
    rw [show layout.console = none from hconsole]
    exact iff_of_false (fun ⟨p, hp, _⟩ => Option.not_mem_none p hp)
      (fun ⟨base, hb, _⟩ => Option.not_mem_none base hb)
  | some base =>
    rw [hf] at hconsole
    obtain ⟨p, hplan, heq⟩ := hconsole
    have hcovers {a : Nat} := hforest.planIdentity_covers_iff hself hplan (a := a)
    simp only [Option.mem_def, Option.some.injEq, exists_eq_left', ← hcovers]
    by_cases hmeets : p.Meets layout.identity
    · -- The console page is in one granule, and so in the range of the loader.
      rw [heq, if_pos hmeets]
      refine iff_of_false (fun ⟨q, hq, _⟩ => absurd hq (Option.not_mem_none q)) fun ha => hout ?_
      have hpSound := (hforest.planIdentity_ok hself hplan).1.sound
      have hiSound := (hforest.planIdentity_ok hself h.identity).1.sound
      obtain ⟨b, hpb, hib⟩ := hmeets.exists_covers hpSound hiSound
      have hend := hfits.console_end base hf
      have haligned := hfits.console_aligned base hf
      rw [hcovers, Format.outward_page haligned hend] at ha hpb
      exact (hloader.mp hib).of_block (hpb.trans ha.symm)
    · rw [heq, if_neg hmeets]
      simp only [Option.some.injEq, exists_eq_left']

/-- The window covers the granules that the kernel touches. -/
theorem Layout.Planned.window_covers_iff (h : layout.Planned t space footprint kernel)
    (hforest : t.Forest low roots) (hroot : space.kernelMap ∈ roots)
    (hkernel : kernel.isConsistent = true) {a : Nat} :
    layout.window.Covers a ↔ KernelCovers F kernel a := by
  obtain ⟨hafford, hvirt, -, -, hsteps, htier, -⟩ := hforest.plan_ok hroot h.window
  obtain ⟨-, hvirtEnd, -⟩ := Region.isConsistent_iff.mp hkernel
  rw [hafford.sound.covers_iff_block hsteps, hvirt, hvirtEnd, hafford.sound.granule_eq]
  unfold KernelCovers
  rw [htier]
  simp only [Option.some.injEq, exists_eq_left']

end Planned

end BootLoader.Paging
