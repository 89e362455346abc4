import BootLoader.Proofs.Paging.Canonical

/-!
# Ranges that the format can express

A plan is *expressible* when its virtual addresses are canonical and every leaf, once it is stored and
read back, maps the block that the plan means (`Plan.Expressible`). The checks of planning bound the
range by the 64-bit address space and by the coverage of a root, which is not enough: a plan that is
made is expressible exactly when, beyond these checks, both ends of its virtual range are canonical and
its physical range ends within the address field of an entry (`Tables.expressible_plan_iff`). Planning
accepts ranges where this fails, for each of the two reasons (`Tables.not_expressible_plan`).
-/

namespace BootLoader.Paging

variable {F : Format} {n : Nat}

/-- Whether the format can express a plan: both what it maps and where to. -/
structure Plan.Expressible (F : Format) (p : Plan) : Prop where
  /-- the virtual addresses are translated as they are -/
  canonical : ∀ a, p.Covers a → F.IsCanonical a
  /-- each leaf maps the block that the plan means -/
  encodable : ∀ j, j < p.steps → ∃ raw base attrs, p.leafAt F j p.tier.level = .ok raw ∧
    F.decode (F.width.stored raw) p.tier.level = .leaf base attrs ∧
      base.toNat = p.phys.toNat + j * p.granule

namespace Format

/-- The canonical addresses at the two ends of the address space are further apart than a root
covers. -/
theorem coverage_add_lowLimit_le (h : F ≠ sv32) :
    F.lowLimit + F.coverage ≤ wordCount - F.lowLimit := by
  cases F with
  | sv32 => exact absurd rfl h
  | _ => decide

/-- A range no longer than the coverage is canonical when both its ends are. -/
theorem canonical_of_ends {first last a : Nat} (hfirst : F.IsCanonical first)
    (hlast : F.IsCanonical last) (hspan : last < first + F.coverage) (hle : first ≤ a)
    (hge : a ≤ last) : F.IsCanonical a := by
  rcases hfirst with hlow | ⟨hne, hhigh⟩
  · rcases hlast with hlow' | ⟨hne, hhigh'⟩
    · exact .inl (Nat.lt_of_le_of_lt hge hlow')
    · -- The range would have to reach from one end of the address space to the other.
      have := coverage_add_lowLimit_le hne
      omega
  · exact .inr ⟨hne, Nat.le_trans hhigh hle⟩

end Format

namespace Plan.Sound

variable {p : Plan}

/-- The last byte of a plan is one that it covers. -/
theorem covers_last (h : p.Sound F) : p.Covers (p.virt.toNat + (p.span - 1)) := by
  have := h.span_pos
  exact ⟨by omega, by omega⟩

/-- All addresses of a plan are canonical when the first and the last are. -/
theorem canonical_iff (h : p.Sound F) :
    (∀ a, p.Covers a → F.IsCanonical a) ↔
      F.IsCanonical p.virt.toNat ∧ F.IsCanonical (p.virt.toNat + (p.span - 1)) := by
  have hpos := h.span_pos
  have hspan := h.span_le
  constructor
  · exact fun hall => ⟨hall _ ⟨Nat.le_refl _, by omega⟩, hall _ h.covers_last⟩
  · rintro ⟨hfirst, hlast⟩ a ⟨hle, hlt⟩
    exact Format.canonical_of_ends hfirst hlast (by omega) hle (by omega)

/-- The base that a leaf of a plan is read back with: its physical address, as far as the address field
holds it. -/
theorem leaf_read_back (h : p.Sound F) {j : Nat} (hj : j < p.steps) :
    ∃ raw base attrs, p.leafAt F j p.tier.level = .ok raw ∧
      F.decode (F.width.stored raw) p.tier.level = .leaf base attrs ∧
        base.toNat = (p.phys.toNat + j * p.granule) % F.addressLimit := by
  refine ⟨_, _, _, h.leafAt_eq_ok hj, h.decode_leafRaw hj, ?_⟩
  have hlt := Nat.mod_lt (p.leafPhys j).toNat F.addressLimit_pos
  rw [Address.toNat_ofNat_of_lt (Nat.lt_of_lt_of_le hlt F.addressLimit_le), h.toNat_leafPhys hj]

/-- All leaves of a plan keep their base when the physical range ends within the address field. -/
theorem encodable_iff (h : p.Sound F) :
    (∀ j, j < p.steps → ∃ raw base attrs, p.leafAt F j p.tier.level = .ok raw ∧
      F.decode (F.width.stored raw) p.tier.level = .leaf base attrs ∧
        base.toNat = p.phys.toNat + j * p.granule) ↔
      p.phys.toNat + p.span ≤ F.addressLimit := by
  have hpos := h.granule_pos
  constructor
  · intro hall
    have hsteps := h.steps_pos
    have hj : p.steps - 1 < p.steps := by omega
    obtain ⟨raw, base, attrs, hraw, hdecode, hbase⟩ := hall (p.steps - 1) hj
    obtain ⟨raw', base', attrs', hraw', hdecode', hbase'⟩ := h.leaf_read_back hj
    obtain rfl : raw = raw' := Except.ok.inj (hraw.symm.trans hraw')
    obtain rfl : base = base' := (Entry.leaf.inj (hdecode.symm.trans hdecode')).1
    -- The last leaf starts below the limit, which is a whole number of leaves.
    have hlt : p.phys.toNat + (p.steps - 1) * p.granule < F.addressLimit := by
      rw [← hbase, hbase']
      exact Nat.mod_lt _ F.addressLimit_pos
    have hdvd : p.granule ∣ F.addressLimit := h.granule_eq ▸ Format.levelSize_dvd_addressLimit _
    have hmod : p.phys.toNat + (p.steps - 1) * p.granule ≡ F.addressLimit [MOD p.granule] := by
      unfold Nat.ModEq
      rw [Nat.add_mul_mod_self_right, h.phys_aligned, Nat.mod_eq_zero_of_dvd hdvd]
    have hnext := hmod.add_le_of_lt hlt
    have hspan : p.span = (p.steps - 1) * p.granule + p.granule := by
      rw [← Nat.succ_mul, Nat.succ_eq_add_one, Nat.sub_add_cancel hsteps]
      rfl
    omega
  · intro hend j hj
    obtain ⟨raw, base, attrs, hraw, hdecode, hbase⟩ := h.leaf_read_back hj
    have hle := leaf_le_span hj
    refine ⟨raw, base, attrs, hraw, hdecode, ?_⟩
    rw [hbase, Nat.mod_eq_of_lt (by omega)]

/-- The format can express a sound plan when both ends of the virtual range are canonical and the
physical range ends within the address field. -/
theorem expressible_iff (h : p.Sound F) :
    p.Expressible F ↔ F.IsCanonical p.virt.toNat ∧ F.IsCanonical (p.virt.toNat + (p.span - 1)) ∧
      p.phys.toNat + p.span ≤ F.addressLimit := by
  rw [← h.encodable_iff, ← and_assoc, ← h.canonical_iff]
  exact ⟨fun he => ⟨he.canonical, he.encodable⟩, fun ⟨hc, he⟩ => ⟨hc, he⟩⟩

end Plan.Sound

namespace Tables

/-- A plan that is made, whatever the tables hold, is expressible exactly when the first and the last of
its virtual addresses are canonical and its physical range ends within the address field of an
entry. -/
theorem expressible_plan_iff {t : Tables F n} {root : FrameId} {virt : VirtAddr} {phys : PhysAddr}
    {size : UInt64} {memory : Memory} {p : Plan} (h : t.plan root virt phys size memory = .ok p) :
    p.Expressible F ↔ F.IsCanonical virt.toNat ∧ F.IsCanonical (virt.toNat + (p.span - 1)) ∧
      phys.toNat + p.span ≤ F.addressLimit := by
  obtain ⟨o, ho, -, -, hp⟩ := plan_eq_ok h
  obtain ⟨hsound, hvirt, hphys, -⟩ := Format.outline_ok ho
  have hsound' : p.Sound F := hp ▸ hsound.withNewTables _
  obtain rfl : p.virt = virt := by rw [hp]; exact hvirt
  obtain rfl : p.phys = phys := by rw [hp]; exact hphys
  exact hsound'.expressible_iff

/-- An ordinary kernel window is expressible: its ends are canonical, and the entries hold its physical
addresses. -/
theorem expressible_plan_sv39 :
    let t := (Tables.empty .sv39 1 ⟨0x80300000⟩).takeFrame
    ∃ p, t.plan 0 ⟨0xffffffff80000000⟩ ⟨0x80000000⟩ 0x1000000 .normal = .ok p ∧
      p.Expressible .sv39 := by
  intro t
  have hplan : t.plan 0 ⟨0xffffffff80000000⟩ ⟨0x80000000⟩ 0x1000000 .normal =
      .ok ⟨.top, ⟨0xffffffff80000000⟩, ⟨0x80000000⟩, 1, 0x40000000, 0, .normal⟩ := by
    decide +kernel
  exact ⟨_, hplan, (expressible_plan_iff hplan).mpr (by decide)⟩

/-- Plans are made for addresses that the format cannot express: a virtual address beyond the first
four GiB, which two levels of tables do not tell from the one below, and a physical address that a
narrow entry cannot hold, whose leaf maps the block at zero. -/
theorem not_expressible_plan :
    let t := (Tables.empty .sv32 1 ⟨0x80300000⟩).takeFrame
    (∃ p, t.plan 0 ⟨0x100000000⟩ ⟨0⟩ 0x400000 .normal = .ok p ∧ ¬p.Expressible .sv32) ∧
      ∃ p, t.plan 0 ⟨0⟩ ⟨0x400000000⟩ 0x400000 .normal = .ok p ∧ ¬p.Expressible .sv32 := by
  intro t
  refine ⟨⟨⟨.top, ⟨0x100000000⟩, ⟨0⟩, 1, 0x400000, 0, .normal⟩, by decide +kernel, ?_⟩,
    ⟨⟨.top, ⟨0⟩, ⟨0x400000000⟩, 1, 0x400000, 0, .normal⟩, by decide +kernel, ?_⟩⟩
  · intro h
    exact absurd (h.canonical 0x100000000 ⟨by decide, by decide⟩) (by decide)
  · intro h
    obtain ⟨raw, base, attrs, hraw, hdecode, hbase⟩ := h.encodable 0 (by decide)
    obtain rfl : (0x1000000ef : UInt64) = raw := Except.ok.inj hraw
    obtain rfl : (⟨0⟩ : PhysAddr) = base := (Entry.leaf.inj hdecode).1
    exact absurd hbase (by decide)

end Tables

end BootLoader.Paging
