import BootLoader.Proofs.Paging.Account

/-!
# Pointers lead upwards

Storage is *upward* when each of its entries, read as one of a root, is empty, a leaf, or a pointer
that was made for a later frame in use (`Tables.Upward`). Every step of a builder keeps storage
upward (`Worksite.Step.upward`): what is written is a leaf, which is one at the level of the root as
well, or a pointer at a frame that was handed out later than the one that holds it. All reachable
storage is therefore upward (`Tables.Reachable.upward`), whatever frames have been used as roots. In
such storage a table is never its own child (`Tables.Upward.childAt_ne`): the format may hold
another address than that of the frame for which a pointer was made, but not that of a frame so far
away.
-/

namespace BootLoader.Paging

variable {F : Format} {n : Nat}

namespace Format

/-- The leaves of a tier are at a level of the format. -/
theorem tier_level_lt (F : Format) (tier : Tier) : tier.level < F.levels := by
  have hlevels := F.two_le_levels
  cases tier with
  | top => exact Nat.lt_of_succ_lt hlevels
  | intermediate => exact hlevels

/-- A leaf of a child is a leaf for the root as well: the formats tell leaves from pointers in the
same way at both levels. -/
theorem IsLeaf.at_root {raw : UInt64} (h : F.IsLeaf raw 1) : F.IsLeaf raw 0 := by
  obtain ⟨base, attrs, hd⟩ := h
  cases F with
  | aarch64 =>
    unfold IsLeaf
    unfold decode Arm.decode at hd ⊢
    simp only at hd ⊢
    split at hd
    · cases hd
    · rename_i hvalid
      rw [if_neg hvalid]
      have hsize : Arm.blockSize? 1 = some 0x200000 := rfl
      have hsize₀ : Arm.blockSize? 0 = some 0x40000000 := rfl
      have hlast : (1 == aarch64.levels - 1) = false := rfl
      have hlast₀ : (0 == aarch64.levels - 1) = false := rfl
      rw [hsize, hlast] at hd
      rw [hsize₀, hlast₀]
      cases hpage : raw.toNat / 2 % 2 == 1 with
      | false => exact ⟨_, _, rfl⟩
      | true =>
        rw [hpage] at hd
        cases hd
  | _ => exact ⟨base, attrs, hd⟩

/-- A pointer is one for the root as well, and points at the same page. -/
theorem decode_next_at_root {raw : UInt64} {level : Nat} {child : PhysAddr}
    (h : F.decode raw level = .next child) : F.decode raw 0 = .next child := by
  cases F with
  | aarch64 =>
    unfold decode Arm.decode at h ⊢
    simp only at h ⊢
    split at h
    · cases h
    · rename_i hvalid
      rw [if_neg hvalid]
      have hsize₀ : Arm.blockSize? 0 = some 0x40000000 := rfl
      have hlast₀ : (0 == aarch64.levels - 1) = false := rfl
      rw [hsize₀, hlast₀]
      cases hsize : Arm.blockSize? level with
      | none =>
        rw [hsize] at h
        cases h
      | some size =>
        rw [hsize] at h
        -- Only a table bit above the last level makes a pointer.
        cases hlast : level == aarch64.levels - 1 <;>
          cases hpage : raw.toNat / 2 % 2 == 1 <;> rw [hlast, hpage] at h <;> cases h
        rfl
  | _ => exact h

/-- A leaf of a tier that is stored is a leaf for the root. -/
theorem isLeaf_of_leaf_ok {memory : Memory} {base : PhysAddr} {tier : Tier} {raw : UInt64}
    (h : F.leaf memory base tier.level = .ok raw) : F.IsLeaf (F.width.stored raw) 0 := by
  obtain ⟨hbase, rfl⟩ := of_leaf_ok (F.tier_level_lt tier) h
  have hleaf : F.IsLeaf (F.width.stored (F.leafWord memory base tier.level)) tier.level :=
    ⟨_, _, decode_leafWord (F.tier_level_lt tier) hbase memory⟩
  cases tier with
  | top => exact hleaf
  | intermediate => exact hleaf.at_root

/-- A pointer that is encoded without a fault points at a page. -/
theorem of_pointer_ok {child : PhysAddr} {raw : UInt64} (h : F.pointer child = .ok raw) :
    raw = F.pointerWord child := by
  unfold pointer at h
  split at h
  · cases h
    rfl
  · cases h

end Format

namespace Tables

/-- Regular storage whose entries, read as those of a root, are empty, leaves, or pointers that were
made for later frames in use. -/
structure Upward (t : Tables F n) : Prop where
  /-- the storage is regular -/
  regular : t.Regular
  /-- an entry is empty, a leaf, or was made for a later frame -/
  entry : ∀ f i, t.entryAt f i = 0 ∨ F.IsLeaf (t.entryAt f i) 0 ∨
    ∃ c, f < c ∧ c < t.used ∧ t.entryAt f i = F.width.stored (F.pointerWord (t.frameAddress c))

namespace Upward

variable {t : Tables F n}

/-- Empty storage is upward. -/
theorem empty (base : PhysAddr) : (Tables.empty F n base).Upward :=
  ⟨.empty base, fun f i => .inl (entryAt_empty base f i)⟩

/-- Handing out a frame keeps storage upward: the frame is empty, and no pointer changes. -/
theorem takeFrame (h : t.Upward) (hu : t.used < n) : t.takeFrame.Upward := by
  refine ⟨h.regular.takeFrame hu, fun f i => ?_⟩
  rw [h.regular.entryAt_takeFrame]
  refine (h.entry f i).imp_right (Or.imp_right ?_)
  rintro ⟨c, hlt, hc, hentry⟩
  exact ⟨c, hlt, Nat.lt_succ_of_lt hc, hentry⟩

/-- Writing a leaf, or a pointer at a later frame, keeps storage upward. -/
theorem setEntry (h : t.Upward) {frame : FrameId} {index : Nat} (hf : frame < t.used)
    (hi : index < F.entries) {raw : UInt64}
    (hraw : F.IsLeaf (F.width.stored raw) 0 ∨
      ∃ c, frame < c ∧ c < t.used ∧ raw = F.pointerWord (t.frameAddress c)) :
    (t.setEntry frame index raw).Upward := by
  refine ⟨h.regular.setEntry hf hi raw, fun f i => ?_⟩
  rw [entryAt_setEntry t raw (Nat.lt_of_lt_of_le hf h.regular.used_le) hi f i,
    (setEntry_base_used t frame index raw).2]
  simp only [frameAddress_setEntry]
  split
  · rename_i hwritten
    rw [hwritten.1]
    refine .inr (hraw.imp_right ?_)
    rintro ⟨c, hlt, hc, rfl⟩
    exact ⟨c, hlt, hc, rfl⟩
  · exact h.entry f i

/-- An entry that says nothing is empty. -/
theorem eq_zero_of_invalid (h : t.Upward) (hbase : t.base.toNat % pageSize = 0) (f : FrameId)
    (i : Nat) (hd : F.decode (t.entryAt f i) 0 = .invalid) : t.entryAt f i = 0 := by
  rcases h.entry f i with hz | ⟨base, attrs, hl⟩ | ⟨c, -, -, hentry⟩
  · exact hz
  · rw [hl] at hd
    cases hd
  · rw [hentry, Format.decode_pointerWord (show 0 + 1 < F.levels from F.two_le_levels)
      (frameAddress_aligned hbase c)] at hd
    cases hd

/-- A table is not its own child, when the storage is not larger than the range of the address
field. -/
theorem childAt_ne (h : t.Upward) (hbase : t.base.toNat % pageSize = 0)
    (hsize : pageSize * n ≤ F.addressLimit) {f : FrameId} {i : Nat} {c : FrameId}
    (hc : t.childAt f i = some c) : c ≠ f := by
  rintro rfl
  rcases h.entry c i with hz | hl | ⟨d, hlt, hd, hentry⟩
  · exact childAt_ne_zero hc hz
  · exact not_isLeaf_of_childAt hc hl
  -- The address of the frame and what the format holds of that of the later one would be equal.
  obtain ⟨child, hnext, hframe⟩ := childAt_eq_some.mp hc
  rw [hentry, Format.decode_pointerWord (show 0 + 1 < F.levels from F.two_le_levels)
    (frameAddress_aligned hbase d), toNat_frameAddress_mod F.addressLimit_dvd] at hnext
  have hmod := Nat.mod_lt (t.base.toNat + pageSize * d) F.addressLimit_pos
  obtain ⟨-, haddr⟩ := toNat_of_frameAt hbase hframe
  rw [← Entry.next.inj hnext, Address.toNat_ofNat_of_lt (Nat.lt_of_lt_of_le hmod F.addressLimit_le)]
    at haddr
  have hlast := Nat.mul_lt_mul_of_pos_left (Nat.lt_of_lt_of_le hd h.regular.used_le)
    (show 0 < pageSize by decide)
  have hfar := Nat.mul_lt_mul_of_pos_left hlt (show 0 < pageSize by decide)
  have hsum : t.base.toNat + pageSize * c + (pageSize * d - pageSize * c) =
      t.base.toNat + pageSize * d := by omega
  have hzero : pageSize * d - pageSize * c = 0 := by
    refine add_left_cancel_mod (a := t.base.toNat + pageSize * c) (m := F.addressLimit) ?_ (by omega)
      F.addressLimit_pos
    rw [hsum, haddr, Nat.add_zero, Nat.mod_eq_of_lt (haddr ▸ hmod)]
  omega

/-- A child is a later frame than its table, when the format holds the addresses of the frames. -/
theorem lt_of_childAt (h : t.Upward) (hplaced : F.Placed n t.base) {f : FrameId} {i : Nat}
    {c : FrameId} (hc : t.childAt f i = some c) : f < c := by
  rcases h.entry f i with hz | hl | ⟨d, hlt, hd, hentry⟩
  · exact absurd hz (childAt_ne_zero hc)
  · exact absurd hl (not_isLeaf_of_childAt hc)
  · have hframe := hplaced.frame_lt d (Nat.lt_of_lt_of_le hd h.regular.used_le)
    have hchild := childAt_of_pointer hplaced.base_aligned hd hframe hentry
    rwa [← Option.some.inj (hchild.symm.trans hc)]

end Upward

end Tables

/-! ## Steps and runs -/

/-- A step keeps storage upward. -/
theorem Worksite.Step.upward {w w' : Worksite F n} (h : w.Step w') (hw : w.tables.Upward) :
    w'.tables.Upward := by
  cases h with
  | say log => exact hw
  | allocate hu => exact hw.takeFrame hu
  | leaf hf hi hleaf => exact hw.setEntry hf hi (.inl (Format.isLeaf_of_leaf_ok hleaf))
  | pointer hlt hchild hi hpointer =>
    exact hw.setEntry (Nat.lt_trans hlt hchild) hi
      (.inr ⟨_, hlt, hchild, Format.of_pointer_ok hpointer⟩)

/-- Steps keep storage upward. -/
theorem Worksite.Steps.upward {w w' : Worksite F n} (h : w.Steps w') (hw : w.tables.Upward) :
    w'.tables.Upward := by
  induction h with
  | refl => exact hw
  | tail _ hstep ih => exact hstep.upward ih

/-- Reachable storage is upward. -/
theorem Tables.Reachable.upward {t : Tables F n} (h : t.Reachable) : t.Upward := by
  induction h with
  | empty base => exact .empty base
  | allocate h hu ih => exact ih.takeFrame hu
  | call h hr c ih => exact (Builder.builds_call c h.regular hr).upward ih
  | perform h hr p ih => exact (Builder.builds_apply p h.regular hr).upward ih

end BootLoader.Paging
