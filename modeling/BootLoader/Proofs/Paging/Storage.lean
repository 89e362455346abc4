import BootLoader.Paging.Walk
import BootLoader.Proofs.Paging.Codec

/-!
# Reading, writing and handing out frames

The storage by its entries: `Tables.entryAt` after a write (`entryAt_setEntry`) and after a frame is
handed out (`entryAt_takeFrame`), and the frame that an address names (`frameAt_frameAddress`,
`toNat_of_frameAt`). Storage is *placed* when its base is at a page and entries of its format
can hold the addresses of its frames (`Format.Placed`). It is *regular* when no more frames are in
use than there are, those not in use are clear, and every entry is as its width stores it
(`Tables.Regular`).
-/

namespace BootLoader.Paging

/-- Whether frames can be at `base`: it is at the start of a page, and pointers of the format hold
the address of each of the `n` frames. -/
structure Format.Placed (F : Format) (n : Nat) (base : PhysAddr) : Prop where
  /-- the frames are pages -/
  base_aligned : base.toNat % pageSize = 0
  /-- a pointer holds the address of a frame -/
  frame_lt : ∀ frame, frame < n → base.toNat + pageSize * frame < F.addressLimit

/-- Storage that is placed is not larger than the range of the address field. -/
theorem Format.Placed.size_le {F : Format} {n : Nat} {base : PhysAddr} (h : F.Placed n base) :
    pageSize * n ≤ F.addressLimit := by
  rcases Nat.eq_zero_or_pos n with rfl | hpos
  · exact Nat.zero_le _
  have hlast := h.frame_lt (n - 1) (by omega)
  -- Both ends are ends of pages.
  obtain ⟨k, hk⟩ := Nat.dvd_trans (F.pageSize_dvd_levelSize 0) (F.levelSize_dvd_addressLimit 0)
  rw [hk] at hlast ⊢
  have hlt : n - 1 < k := Nat.lt_of_mul_lt_mul_left (Nat.lt_of_le_of_lt (Nat.le_add_left _ _) hlast)
  exact Nat.mul_le_mul_left _ (by omega)

namespace Tables

variable {F : Format} {n : Nat}

/-! ## Entries -/

/-- All entries of empty storage are zero. -/
theorem entryAt_empty (base : PhysAddr) (frame : FrameId) (index : Nat) :
    (Tables.empty F n base).entryAt frame index = 0 := by
  unfold entryAt empty
  simp only [Vector.getElem?_replicate]
  split
  · rw [Option.bind_some, Vector.getElem?_replicate]
    split <;> rfl
  · rfl

/-- A write replaces one entry, as its width stores it. -/
theorem entryAt_setEntry (t : Tables F n) {frame : FrameId} {index : Nat} (raw : UInt64)
    (hf : frame < n) (hi : index < F.entries) (f : FrameId) (i : Nat) :
    (t.setEntry frame index raw).entryAt f i =
      if f = frame ∧ i = index then F.width.stored raw else t.entryAt f i := by
  unfold setEntry entryAt
  rw [Vector.getElem?_eq_getElem hf]
  simp only [Vector.getElem?_setIfInBounds]
  -- Other frames are not touched, and in the frame itself one entry is.
  by_cases hff : frame = f
  · subst hff
    rw [if_pos rfl, if_pos hf, Option.bind_some, Vector.getElem?_setIfInBounds,
      Vector.getElem?_eq_getElem hf, Option.bind_some]
    by_cases hii : index = i
    · subst hii
      rw [if_pos rfl, if_pos hi, if_pos ⟨rfl, rfl⟩, Option.getD_some]
    · rw [if_neg hii, if_neg (fun h => hii h.2.symm)]
  · rw [if_neg hff, if_neg (fun h => hff h.1.symm)]

/-- A write leaves the base and the number of frames in use. -/
theorem setEntry_base_used (t : Tables F n) (frame : FrameId) (index : Nat) (raw : UInt64) :
    (t.setEntry frame index raw).base = t.base ∧ (t.setEntry frame index raw).used = t.used := by
  unfold setEntry
  split <;> exact ⟨rfl, rfl⟩

/-- A write leaves the frames that addresses name. -/
theorem frameAt_setEntry (t : Tables F n) (frame : FrameId) (index : Nat) (raw : UInt64)
    (pa : PhysAddr) : (t.setEntry frame index raw).frameAt pa = t.frameAt pa := by
  obtain ⟨hbase, hused⟩ := setEntry_base_used t frame index raw
  unfold frameAt
  rw [hbase, hused]

/-- A write leaves the addresses of frames. -/
theorem frameAddress_setEntry (t : Tables F n) (frame : FrameId) (index : Nat) (raw : UInt64)
    (f : FrameId) : (t.setEntry frame index raw).frameAddress f = t.frameAddress f := by
  unfold frameAddress
  rw [(setEntry_base_used t frame index raw).1]

/-- A frame is cleared as it is handed out; the others stay. -/
theorem entryAt_takeFrame (t : Tables F n) (f : FrameId) (i : Nat) :
    t.takeFrame.entryAt f i = if f = t.used then 0 else t.entryAt f i := by
  unfold takeFrame entryAt
  simp only [Vector.getElem?_setIfInBounds]
  by_cases h : t.used = f
  · rw [if_pos h, if_pos h.symm]
    split
    · rw [Option.bind_some, Vector.getElem?_replicate]
      split <;> rfl
    · rfl
  · rw [if_neg h, if_neg (fun e => h e.symm)]

/-- Entries of the storage are read without a fault. -/
theorem read_eq_ok (t : Tables F n) {frame : FrameId} {index : Nat} (hf : frame < n)
    (hi : index < F.entries) : t.read frame index = .ok (t.entryAt frame index) := by
  unfold read hasEntry
  rw [if_pos (by rw [decide_eq_true hf, decide_eq_true hi, Bool.and_self])]

/-- Entries of the storage are written without a fault. -/
theorem write_eq_ok (t : Tables F n) {frame : FrameId} {index : Nat} (raw : UInt64) (hf : frame < n)
    (hi : index < F.entries) : t.write frame index raw = .ok (t.setEntry frame index raw) := by
  unfold write hasEntry
  rw [if_pos (by rw [decide_eq_true hf, decide_eq_true hi, Bool.and_self])]

/-- A frame is handed out while one is free. -/
theorem allocate_eq_some (t : Tables F n) (h : t.used < n) :
    t.allocate = some (t.used, t.takeFrame) := by
  unfold allocate
  rw [if_neg (fun e => Nat.ne_of_lt h (beq_iff_eq.mp e))]

/-- No frame is handed out when all are in use. -/
theorem allocate_eq_none (t : Tables F n) (h : t.used = n) : t.allocate = none := by
  unfold allocate
  rw [if_pos (beq_iff_eq.mpr h)]

/-! ## Addresses of frames -/

/-- The address of a frame in the address space, as a number. -/
theorem toNat_frameAddress {t : Tables F n} {frame : FrameId}
    (h : t.base.toNat + pageSize * frame < wordCount) :
    (t.frameAddress frame).toNat = t.base.toNat + pageSize * frame := by
  unfold frameAddress
  exact Address.toNat_offset_ofNat h

/-- The address of a frame modulo a divisor of the size of the address space. -/
theorem toNat_frameAddress_mod {t : Tables F n} {frame : FrameId} {m : Nat} (h : m ∣ wordCount) :
    (t.frameAddress frame).toNat % m = (t.base.toNat + pageSize * frame) % m := by
  unfold frameAddress
  rw [Address.toNat_offset, UInt64.toNat_ofNat', show 2 ^ 64 = wordCount from rfl, Nat.add_mod_mod,
    Nat.mod_mod_of_dvd _ h]

/-- Frames are pages. -/
theorem frameAddress_aligned {t : Tables F n} (hbase : t.base.toNat % pageSize = 0)
    (frame : FrameId) : (t.frameAddress frame).toNat % pageSize = 0 := by
  unfold frameAddress
  rw [Address.toNat_offset, UInt64.toNat_ofNat', wordCount_eq]
  unfold pageSize at *
  omega

/-- The address of a frame in use names that frame. -/
theorem frameAt_frameAddress {t : Tables F n} (hbase : t.base.toNat % pageSize = 0)
    {frame : FrameId} (h : t.base.toNat + pageSize * frame < wordCount) (hu : frame < t.used) :
    t.frameAt (t.frameAddress frame) = some frame := by
  have ha := toNat_frameAddress h
  have hpage : (t.frameAddress frame).isPageAligned = true :=
    Address.isPageAligned_iff.mpr (frameAddress_aligned hbase frame)
  have hquot : ((t.frameAddress frame).toNat - t.base.toNat) / pageSize = frame := by
    rw [ha, Nat.add_sub_cancel_left, Nat.mul_div_cancel_left _ (by decide)]
  unfold frameAt
  rw [hpage, if_neg (by rw [ha]; simp), hquot, if_pos hu]

/-- A frame that an address names is in use, and starts there. -/
theorem toNat_of_frameAt {t : Tables F n} (hbase : t.base.toNat % pageSize = 0)
    {pa : PhysAddr} {frame : FrameId} (h : t.frameAt pa = some frame) :
    frame < t.used ∧ pa.toNat = t.base.toNat + pageSize * frame := by
  unfold frameAt at h
  split at h
  · cases h
  · rename_i hguard
    simp only [Bool.or_eq_true, decide_eq_true_eq, Bool.not_eq_true', not_or, Nat.not_lt,
      Bool.not_eq_false, Address.isPageAligned_iff] at hguard
    obtain ⟨hle, hpage⟩ := hguard
    simp only [Option.ite_none_right_eq_some, Option.some.injEq] at h
    obtain ⟨hu, hframe⟩ := h
    refine ⟨hframe ▸ hu, ?_⟩
    -- The address is a whole number of pages above the base.
    have hquot : (pa.toNat - t.base.toNat) / 4096 = (frame : Nat) := hframe
    unfold pageSize at *
    omega

/-- A frame in use that an address names stays so when more frames are in use. -/
theorem frameAt_mono {t t' : Tables F n} (hbase : t'.base = t.base) (hu : t.used ≤ t'.used)
    {pa : PhysAddr} {frame : FrameId} (h : t.frameAt pa = some frame) :
    t'.frameAt pa = some frame := by
  unfold frameAt at h ⊢
  rw [hbase]
  split at h
  · cases h
  · rename_i hguard
    rw [if_neg hguard]
    simp only [Option.ite_none_right_eq_some, Option.some.injEq] at h ⊢
    exact ⟨Nat.lt_of_lt_of_le h.1 hu, h.2⟩

/-! ## Regular storage -/

/-- Storage as it is kept by handing out frames and writing entries of frames in use. -/
structure Regular (t : Tables F n) : Prop where
  /-- only frames of the storage are in use -/
  used_le : t.used ≤ n
  /-- frames that are not in use are clear -/
  free_zero : ∀ frame, t.used ≤ frame → ∀ index, t.entryAt frame index = 0
  /-- entries are as their width stores them -/
  stored : ∀ frame index, F.width.stored (t.entryAt frame index) = t.entryAt frame index

/-- Empty storage is regular. -/
theorem Regular.empty (base : PhysAddr) : (Tables.empty F n base).Regular where
  used_le := Nat.zero_le n
  free_zero := fun frame _ index => entryAt_empty base frame index
  stored := by
    intro frame index
    rw [entryAt_empty]
    cases F <;> rfl

/-- Handing out a frame changes no entry of regular storage: the frame is clear already. -/
theorem Regular.entryAt_takeFrame {t : Tables F n} (h : t.Regular) (f : FrameId) (i : Nat) :
    t.takeFrame.entryAt f i = t.entryAt f i := by
  rw [Tables.entryAt_takeFrame]
  split
  · rename_i hf
    rw [hf, h.free_zero _ (Nat.le_refl _)]
  · rfl

/-- Handing out a frame keeps storage regular. -/
theorem Regular.takeFrame {t : Tables F n} (h : t.Regular) (hu : t.used < n) :
    t.takeFrame.Regular where
  used_le := hu
  free_zero := by
    intro frame hframe index
    rw [h.entryAt_takeFrame, h.free_zero frame (Nat.le_of_succ_le hframe)]
  stored := by
    intro frame index
    rw [h.entryAt_takeFrame, h.stored]

/-- Writing an entry of a frame in use keeps storage regular. -/
theorem Regular.setEntry {t : Tables F n} (h : t.Regular) {frame : FrameId} {index : Nat}
    (hf : frame < t.used) (hi : index < F.entries) (raw : UInt64) :
    (t.setEntry frame index raw).Regular where
  used_le := by
    rw [(setEntry_base_used t frame index raw).2]
    exact h.used_le
  free_zero := by
    intro f hu i
    rw [(setEntry_base_used t frame index raw).2] at hu
    -- A frame that is not in use is not the one that is written.
    rw [entryAt_setEntry t raw (Nat.lt_of_lt_of_le hf h.used_le) hi,
      if_neg (by rintro ⟨rfl, -⟩; exact Nat.not_le_of_lt hf hu), h.free_zero f hu]
  stored := by
    intro f i
    rw [entryAt_setEntry t raw (Nat.lt_of_lt_of_le hf h.used_le) hi]
    split
    · exact Format.stored_stored _ _
    · exact h.stored f i

end Tables

end BootLoader.Paging
