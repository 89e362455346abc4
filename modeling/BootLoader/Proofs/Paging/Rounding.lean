import BootLoader.Proofs.Paging.Planning

/-!
# Identity mappings and their hull

The *hull* of a range of addresses is the shortest range of whole root granules that encloses it
(`Plan.Hull`). A plan for an identity mapping is meant to be the hull of its request. The rounded end
of a range is a multiple of the root granule, and the end of the address space, which is one too, is
not an address: a range that reaches into the last root granule has no rounded end. Rounding then
stops at the granule below, and the plan is made as if nothing had happened. So a plan that is made
is the hull of its request exactly when the request ends at or before the last root granule, and ends
where that granule starts if not (`Tables.planIdentity_hull_iff`).
-/

namespace BootLoader.Paging

variable {F : Format} {n : Nat}

/-- Whether the `span` bytes from `base` on are whole root granules and enclose a range. -/
structure Format.Encloses (F : Format) (start limit : PhysAddr) (base span : Nat) : Prop where
  /-- they start at a root granule -/
  base_aligned : F.levelSize 0 ∣ base
  /-- they are root granules -/
  span_aligned : F.levelSize 0 ∣ span
  /-- they start with the range or before it -/
  base_le : base ≤ start.toNat
  /-- they end with the range or after it -/
  limit_le : limit.toNat ≤ base + span

/-- Whether a plan maps the hull of a range to itself, with leaves of the top tier. -/
structure Plan.Hull (F : Format) (p : Plan) (start limit : PhysAddr) : Prop where
  /-- each address is mapped to itself -/
  virt_eq : p.virt.toNat = p.phys.toNat
  /-- the leaves are entries of the root -/
  top : p.tier = .top
  /-- the plan encloses the range -/
  encloses : F.Encloses start limit p.virt.toNat p.span
  /-- nothing shorter does -/
  least : ∀ base span, F.Encloses start limit base span → p.span ≤ span

namespace Tables

/-- A plan for an identity mapping that is made, whatever the tables hold, is the hull of its request
exactly when the request ends at or before the start of the last root granule of the address space.
If it ends later, the plan ends where that granule starts. -/
theorem planIdentity_hull_iff {t : Tables F n} {root : FrameId} {start limit : PhysAddr}
    {memory : Memory} {p : Plan} (h : t.planIdentity root start limit memory = .ok p) :
    (p.Hull F start limit ↔ limit.toNat + F.levelSize 0 ≤ wordCount) ∧
      (wordCount < limit.toNat + F.levelSize 0 →
        p.virt.toNat + p.span + F.levelSize 0 = wordCount) := by
  have hshift := F.levelShift_le 0
  obtain ⟨hsound, htop, hvirt, hphys, hend⟩ := planIdentity_eq_ok h
  have hsame : p.virt.toNat = p.phys.toNat := by rw [hvirt, Address.toNat_identityMapped]
  have hbase : F.levelSize 0 ∣ p.virt.toNat := by
    rw [← hsound.granule_top htop]
    exact Nat.dvd_of_mod_eq_zero hsound.virt_aligned
  have hspan : F.levelSize 0 ∣ p.span := hsound.granule_top htop ▸ Nat.dvd_mul_left _ _
  have hstart : p.virt.toNat ≤ start.toNat := by
    rw [hsame, hphys]
    exact Address.alignDown_le start hshift
  rw [← hsame] at hend
  -- Whether the plan reaches the end of the range is whether rounding up does not go down.
  have hreach : limit.toNat ≤ p.virt.toNat + p.span ↔ limit.toNat + F.levelSize 0 ≤ wordCount := by
    rw [hend, Format.levelSize_eq]
    exact Address.le_alignUp_iff hshift
  refine ⟨⟨fun hull => hreach.mp hull.encloses.limit_le, fun hle => ?_⟩, fun hlt => ?_⟩
  · refine ⟨hsame, htop, ⟨hbase, hspan, hstart, hreach.mpr hle⟩, ?_⟩
    rintro base span ⟨hbase', hspan', hstart', hlimit'⟩
    rw [Format.levelSize_eq] at hbase' hspan'
    -- What encloses the range starts no later than the plan and ends no earlier.
    have hlow : base ≤ p.virt.toNat := by
      rw [hsame, hphys]
      exact Address.le_alignDown_of_dvd hshift hbase' hstart'
    have hhigh : p.virt.toNat + p.span ≤ base + span := by
      rw [hend]
      exact Address.alignUp_le_of_dvd hshift (Nat.dvd_add hbase' hspan') hlimit'
    omega
  · rw [hend, Format.levelSize_eq]
    rw [Format.levelSize_eq] at hlt
    exact Address.toNat_alignUp_of_top hshift (by omega)

/-- A range within one root granule, mapped by the granule around it. -/
theorem planIdentity_hull_sv39 :
    let t := (Tables.empty .sv39 1 ⟨0x80300000⟩).takeFrame
    ∃ p, t.planIdentity 0 ⟨0x80200000⟩ ⟨0x80345678⟩ .normal = .ok p ∧
      p.Hull .sv39 ⟨0x80200000⟩ ⟨0x80345678⟩ := by
  intro t
  have hplan : t.planIdentity 0 ⟨0x80200000⟩ ⟨0x80345678⟩ .normal =
      .ok ⟨.top, ⟨0x80000000⟩, ⟨0x80000000⟩, 1, 0x40000000, 0, .normal⟩ := by
    decide +kernel
  exact ⟨_, hplan, (planIdentity_hull_iff hplan).1.mpr (by decide)⟩

/-- A range that reaches into the last root granule: a plan is made for it that ends where that granule
starts, before the end of the range. -/
theorem not_hull_planIdentity :
    let t := (Tables.empty .sv39 1 ⟨0x80300000⟩).takeFrame
    ∃ p, t.planIdentity 0 ⟨0xffffffff80000000⟩ ⟨0xfffffffff0000000⟩ .normal = .ok p ∧
      p.virt.toNat + p.span < 0xfffffffff0000000 ∧
      ¬p.Hull .sv39 ⟨0xffffffff80000000⟩ ⟨0xfffffffff0000000⟩ := by
  refine ⟨⟨.top, ⟨0xffffffff80000000⟩, ⟨0xffffffff80000000⟩, 1, 0x40000000, 0, .normal⟩,
    by decide +kernel, by decide, fun hull => ?_⟩
  exact absurd hull.encloses.limit_le (by decide)

end Tables

end BootLoader.Paging
