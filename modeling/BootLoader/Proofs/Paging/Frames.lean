import BootLoader.Proofs.Paging.Edits

/-!
# Frames and the memory that holds them

The storage is a list of entries for each frame; what the hardware walks is memory. Addresses name
frames in both directions: `Tables.frameAt` finds a frame exactly at its address, and only while it is
in use (`Tables.Faithful.frameAt_iff`). A frame is one page of bytes under either width of entries
(`EntryWidth.load`, `EntryWidth.store`), and no two entries of the storage have a byte in common
(`Tables.apart_place`). Memory that holds the storage does so again when a change of the storage is
made in its bytes (`Tables.HeldBy.edit`), and after any number of changes (`Tables.HeldBy.after`). A
write is therefore read back, and no other entry is read differently (`Tables.Faithful.write`).
-/

namespace BootLoader.Paging

/-- A number by its quotient and its remainder. -/
theorem div_mod_of_lt {s k r : Nat} (h : r < s) : (s * k + r) / s = k ∧ (s * k + r) % s = r := by
  constructor
  · rw [Nat.mul_add_div (Nat.zero_lt_of_lt h), Nat.div_eq_of_lt h, Nat.add_zero]
  · rw [Nat.mul_add_mod, Nat.mod_eq_of_lt h]

/-! ## Entries in memory -/

/-- Memory by its bytes. -/
abbrev Ram := Nat → UInt8

/-- The number that the bytes from the address `a` on stand for, the lowest byte first. -/
def littleEndian (m : Ram) (a : Nat) : (count : Nat) → Nat
  | 0 => 0
  | count + 1 => (m a).toNat + 256 * littleEndian m (a + 1) count

/-- Bytes that are those of a number, as many of them as there are. -/
theorem littleEndian_eq {m : Ram} {a count v : Nat}
    (h : ∀ j, j < count → (m (a + j)).toNat = v / 256 ^ j % 256) :
    littleEndian m a count = v % 256 ^ count := by
  induction count generalizing a v with
  | zero => rw [Nat.pow_zero, Nat.mod_one]; rfl
  | succ count ih =>
    have hfirst : (m a).toNat = v % 256 := by
      have := h 0 (Nat.succ_pos count)
      rwa [Nat.pow_zero, Nat.div_one] at this
    -- The bytes that follow are those of the number without its lowest byte.
    have hrest : littleEndian m (a + 1) count = v / 256 % 256 ^ count := by
      refine ih fun j hj => ?_
      have := h (j + 1) (Nat.succ_lt_succ hj)
      rwa [Nat.pow_succ', ← Nat.div_div_eq_div_mul, Nat.add_comm j, ← Nat.add_assoc] at this
    calc littleEndian m a (count + 1)
      _ = v % 256 + 256 * (v / 256 % 256 ^ count) := by rw [littleEndian, hfirst, hrest]
      _ = v % 256 ^ (count + 1) := by rw [Nat.pow_succ', Nat.mod_mul]

/-- Memories that have the same bytes there stand for the same number. -/
theorem littleEndian_congr {m m' : Ram} {a count : Nat}
    (h : ∀ b, a ≤ b → b < a + count → m b = m' b) :
    littleEndian m a count = littleEndian m' a count := by
  induction count generalizing a with
  | zero => rfl
  | succ count ih =>
    rw [littleEndian, littleEndian, h a (Nat.le_refl a) (by omega),
      ih fun b hle hlt => h b (by omega) (by omega)]

namespace EntryWidth

/-- The number of bytes of an entry. -/
def size : EntryWidth → Nat
  | narrow => 4
  | wide => 8

/-- The entry at the address `a`. -/
def load (w : EntryWidth) (m : Ram) (a : Nat) : UInt64 := UInt64.ofNat (littleEndian m a w.size)

/-- Memory with the entry at the address `a` replaced: the low bytes of `raw`, as many as the entry
has. -/
def store (w : EntryWidth) (m : Ram) (a : Nat) (raw : UInt64) : Ram := fun b =>
  if a ≤ b ∧ b < a + w.size then UInt8.ofNat (raw.toNat / 256 ^ (b - a)) else m b

/-- Entries of either width fill a page. -/
theorem size_mul_entries (w : EntryWidth) : w.size * w.entries = pageSize := by cases w <;> rfl

/-- What a table keeps of a word are the bytes that an entry has. -/
theorem stored_eq (w : EntryWidth) (raw : UInt64) :
    w.stored raw = UInt64.ofNat (raw.toNat % 256 ^ w.size) := by
  cases w with
  | narrow => rfl
  | wide =>
    rw [show 256 ^ wide.size = 2 ^ 64 from rfl, Nat.mod_eq_of_lt raw.toNat_lt, UInt64.ofNat_toNat]
    rfl

/-- An entry is loaded as it was stored. -/
theorem load_store (w : EntryWidth) (m : Ram) (a : Nat) (raw : UInt64) :
    w.load (w.store m a raw) a = w.stored raw := by
  rw [stored_eq]
  unfold load
  refine congrArg UInt64.ofNat (littleEndian_eq fun j hj => ?_)
  unfold store
  rw [if_pos ⟨Nat.le_add_right a j, Nat.add_lt_add_left hj a⟩, Nat.add_sub_cancel_left,
    UInt8.toNat_ofNat']

/-- An entry that has no byte in common with the one that is stored is loaded as before, whatever the
widths of the two. -/
theorem load_store_of_apart (w w' : EntryWidth) (m : Ram) {a c : Nat} (raw : UInt64)
    (h : a + w.size ≤ c ∨ c + w'.size ≤ a) : w'.load (w.store m a raw) c = w'.load m c := by
  unfold load
  refine congrArg UInt64.ofNat (littleEndian_congr fun b hle hlt => ?_)
  unfold store
  rw [if_neg (by omega)]

/-- Memory with the page at the address `a` cleared. -/
def clearPage (m : Ram) (a : Nat) : Ram := fun b => if a ≤ b ∧ b < a + pageSize then 0 else m b

/-- An entry in a page that has been cleared is zero. -/
theorem load_clearPage (w : EntryWidth) (m : Ram) {a c : Nat} (hle : a ≤ c)
    (hlt : c + w.size ≤ a + pageSize) : w.load (clearPage m a) c = 0 := by
  have hzero : littleEndian (clearPage m a) c w.size = 0 % 256 ^ w.size := by
    refine littleEndian_eq fun j hj => ?_
    unfold clearPage
    rw [if_pos (by omega), Nat.zero_div]
    rfl
  unfold load
  rw [hzero, Nat.zero_mod]
  rfl

/-- An entry outside of a page that has been cleared is loaded as before. -/
theorem load_clearPage_of_apart (w : EntryWidth) (m : Ram) {a c : Nat}
    (h : a + pageSize ≤ c ∨ c + w.size ≤ a) : w.load (clearPage m a) c = w.load m c := by
  unfold load
  refine congrArg UInt64.ofNat (littleEndian_congr fun b hle hlt => ?_)
  unfold clearPage
  rw [if_neg (by omega)]

end EntryWidth

namespace Tables

variable {F : Format} {n : Nat} {t : Tables F n} {m : Ram}

/-! ## Places of entries -/

/-- The address of an entry. -/
def place (t : Tables F n) (frame : FrameId) (index : Nat) : Nat :=
  (t.frameAddress frame).toNat + F.width.size * index

/-- An entry is within its frame. -/
theorem place_add_size_le (t : Tables F n) (frame : FrameId) {index : Nat} (hi : index < F.entries) :
    t.place frame index + F.width.size ≤ (t.frameAddress frame).toNat + pageSize := by
  have hlast : F.width.size * (index + 1) ≤ F.width.size * F.entries := Nat.mul_le_mul_left _ hi
  rw [show F.width.size * F.entries = pageSize from F.width.size_mul_entries, Nat.mul_succ] at hlast
  unfold place
  omega

section Fits

variable (hfit : t.base.toNat + pageSize * n ≤ wordCount)
include hfit

/-- No frame goes around the end of the address space. -/
theorem toNat_frameAddress_of_lt {frame : FrameId} (hf : frame < n) :
    (t.frameAddress frame).toNat = t.base.toNat + pageSize * frame := by
  have hlt := Nat.mul_lt_mul_of_pos_left hf (show 0 < pageSize by decide)
  exact toNat_frameAddress (Nat.lt_of_lt_of_le (Nat.add_lt_add_left hlt _) hfit)

/-- The entries of all frames follow one another. -/
theorem place_eq {frame : FrameId} (hf : frame < n) (index : Nat) :
    t.place frame index = t.base.toNat + F.width.size * (frame * F.entries + index) := by
  have hpage : pageSize * frame = F.width.size * (frame * F.entries) := by
    calc pageSize * frame
      _ = F.width.size * F.entries * frame := by rw [← F.width.size_mul_entries]; rfl
      _ = F.width.size * (frame * F.entries) := by rw [Nat.mul_assoc, Nat.mul_comm F.entries]
  unfold place
  rw [toNat_frameAddress_of_lt hfit hf, hpage, Nat.mul_add, Nat.add_assoc]

/-- No two entries have a byte in common. -/
theorem apart_place {f g : FrameId} {i j : Nat} (hf : f < n) (hg : g < n) (hi : i < F.entries)
    (hj : j < F.entries) (hne : (f, i) ≠ (g, j)) :
    t.place f i + F.width.size ≤ t.place g j ∨ t.place g j + F.width.size ≤ t.place f i := by
  rw [place_eq hfit hf, place_eq hfit hg]
  have hnumber : f * F.entries + i ≠ g * F.entries + j := by
    intro h
    obtain ⟨rfl, rfl⟩ := (Format.digits_eq_iff hi hj).mp h
    exact hne rfl
  -- An entry ends where the next one starts, or before.
  have hstep : ∀ {k l : Nat}, k < l →
      t.base.toNat + F.width.size * k + F.width.size ≤ t.base.toNat + F.width.size * l := by
    intro k l hlt
    rw [Nat.add_assoc, ← Nat.mul_succ]
    exact Nat.add_le_add_left (Nat.mul_le_mul_left _ hlt) _
  exact (Nat.lt_or_gt_of_ne hnumber).imp hstep hstep

/-- The entries of a frame have no byte in another frame. -/
theorem apart_frame {f g : FrameId} {j : Nat} (hf : f < n) (hg : g < n) (hj : j < F.entries)
    (hne : g ≠ f) : (t.frameAddress f).toNat + pageSize ≤ t.place g j ∨
      t.place g j + F.width.size ≤ (t.frameAddress f).toNat := by
  have hwithin := t.place_add_size_le g hj
  have hfrom : (t.frameAddress g).toNat ≤ t.place g j := Nat.le_add_right _ _
  rw [toNat_frameAddress_of_lt hfit hg] at hwithin hfrom
  rw [toNat_frameAddress_of_lt hfit hf]
  -- The pages of the two frames follow one another, in one order or the other.
  rcases Nat.lt_or_gt_of_ne hne with hlt | hgt
  · have hpages : pageSize * (g + 1) ≤ pageSize * f := Nat.mul_le_mul_left _ hlt
    rw [Nat.mul_succ] at hpages
    omega
  · have hpages : pageSize * (f + 1) ≤ pageSize * g := Nat.mul_le_mul_left _ hgt
    rw [Nat.mul_succ] at hpages
    omega

end Fits

/-! ## Storage in memory -/

/-- Whether memory holds the storage: at the place of each entry it has this entry. -/
def HeldBy (t : Tables F n) (m : Ram) : Prop :=
  ∀ f, f < n → ∀ i, i < F.entries → F.width.load m (t.place f i) = t.entryAt f i

/-- What a change of the storage does to memory: a frame that is handed out is cleared, and an entry
is stored at its place. -/
def editRam (t : Tables F n) (m : Ram) : Edit → Ram
  | .allocate => EntryWidth.clearPage m (t.frameAddress t.used).toNat
  | .write frame index raw => F.width.store m (t.place frame index) raw

/-- Memory after the changes `es`, oldest first. -/
def ramAfter (t : Tables F n) (m : Ram) : List Edit → Ram
  | [] => m
  | e :: es => (t.edit e).ramAfter (t.editRam m e) es

section Fits

variable (hfit : t.base.toNat + pageSize * n ≤ wordCount)
include hfit

/-- A write to the storage is a store to memory, at the place of the entry. -/
theorem HeldBy.write (h : t.HeldBy m) {frame : FrameId} {index : Nat} (hf : frame < n)
    (hi : index < F.entries) (raw : UInt64) :
    (t.setEntry frame index raw).HeldBy (F.width.store m (t.place frame index) raw) := by
  intro g hg j hj
  have hplace : (t.setEntry frame index raw).place g j = t.place g j := by
    unfold place
    rw [frameAddress_setEntry]
  rw [hplace, entryAt_setEntry t raw hf hi]
  split
  · rename_i hsame
    obtain ⟨rfl, rfl⟩ := hsame
    exact F.width.load_store m _ raw
  · rename_i hother
    have hne : (frame, index) ≠ (g, j) := by
      rintro ⟨⟩
      exact hother ⟨rfl, rfl⟩
    rw [F.width.load_store_of_apart F.width m raw (apart_place hfit hf hg hi hj hne), h g hg j hj]

/-- Handing out a frame clears its page, for entries of either width. -/
theorem HeldBy.takeFrame (h : t.HeldBy m) (hu : t.used < n) :
    t.takeFrame.HeldBy (EntryWidth.clearPage m (t.frameAddress t.used).toNat) := by
  intro g hg j hj
  rw [entryAt_takeFrame]
  show F.width.load _ (t.place g j) = _
  split
  · rename_i hsame
    rw [hsame]
    exact F.width.load_clearPage m (Nat.le_add_right _ _) (t.place_add_size_le t.used hj)
  · rename_i hother
    rw [F.width.load_clearPage_of_apart m (apart_frame hfit hu hg hj hother), h g hg j hj]

/-- A change in the storage is made in memory as well. -/
theorem HeldBy.edit (h : t.HeldBy m) (ht : t.Regular) {e : Edit} (he : t.Reaches e) :
    (t.edit e).HeldBy (t.editRam m e) := by
  cases e with
  | allocate => exact h.takeFrame hfit he
  | write frame index raw =>
    exact h.write hfit (Nat.lt_of_lt_of_le he.1 ht.used_le) he.2 raw

/-- Changes in the storage are made in memory as well, however many there are. -/
theorem HeldBy.after (h : t.HeldBy m) (ht : t.Regular) {es : List Edit} (hes : t.ReachesAll es) :
    (t.after es).HeldBy (t.ramAfter m es) := by
  induction es generalizing t m with
  | nil => exact h
  | cons e es ih =>
    -- The frames stay where they are, so the storage fits after each change.
    have hbase : (t.edit e).base = t.base := base_after t [e]
    exact ih (hbase ▸ hfit) (h.edit hfit ht hes.1) (hes.1.step ht).1 hes.2

/-- Regular storage is held by some memory. -/
theorem Regular.exists_heldBy (h : t.Regular) : ∃ m, t.HeldBy m := by
  -- The bytes of entry number `k` are those of the entry of its frame.
  let entry (k : Nat) : UInt64 := t.entryAt (k / F.entries) (k % F.entries)
  refine ⟨fun b => UInt8.ofNat ((entry ((b - t.base.toNat) / F.width.size)).toNat /
    256 ^ ((b - t.base.toNat) % F.width.size)), ?_⟩
  intro f hf i hi
  have hentry : entry (f * F.entries + i) = t.entryAt f i := by
    obtain ⟨hframe, hindex⟩ := div_mod_of_lt (k := f) hi
    show t.entryAt (_ / _) (_ % _) = _
    rw [Nat.mul_comm f, hframe, hindex]
  rw [place_eq hfit hf, ← h.stored f i, EntryWidth.stored_eq]
  refine congrArg UInt64.ofNat (littleEndian_eq fun j hj => ?_)
  obtain ⟨hnumber, hbyte⟩ := div_mod_of_lt (k := f * F.entries + i) hj
  rw [Nat.add_assoc, Nat.add_sub_cancel_left, hnumber, hbyte, hentry, UInt8.toNat_ofNat']

end Fits

/-! ## Faithful storage -/

/-- Whether addresses name exactly the frames in use, and a write changes exactly one entry, in the
storage and in memory that holds it. -/
structure Faithful (t : Tables F n) : Prop where
  /-- an address names a frame when the frame is in use and starts there, and then only -/
  frameAt_iff : ∀ pa frame, t.frameAt pa = some frame ↔
    frame < t.used ∧ pa = t.frameAddress frame
  /-- an entry that is written is read as its width stores it, and all others as before -/
  write : ∀ frame index raw, frame < n → index < F.entries →
    ∃ t', t.write frame index raw = .ok t' ∧ t'.read frame index = .ok (F.width.stored raw) ∧
      (∀ f i, (f, i) ≠ (frame, index) → t'.read f i = t.read f i) ∧
      ∀ m, t.HeldBy m → t'.HeldBy (F.width.store m (t.place frame index) raw)

/-- Storage at the start of a page is faithful when it ends within the address space, however many of
its frames are in use. -/
theorem faithful (hbase : t.base.toNat % pageSize = 0)
    (hfit : t.base.toNat + pageSize * n ≤ wordCount) (hused : t.used ≤ n) : t.Faithful where
  frameAt_iff := by
    intro pa frame
    constructor
    · intro h
      obtain ⟨hu, haddr⟩ := toNat_of_frameAt hbase h
      refine ⟨hu, Address.eq_of_toNat (haddr.trans ?_)⟩
      exact (toNat_frameAddress_of_lt hfit (Nat.lt_of_lt_of_le hu hused)).symm
    · rintro ⟨hu, rfl⟩
      have haddr := toNat_frameAddress_of_lt hfit (Nat.lt_of_lt_of_le hu hused)
      exact frameAt_frameAddress hbase (haddr ▸ (t.frameAddress frame).toNat_lt) hu
  write := by
    intro frame index raw hf hi
    refine ⟨_, write_eq_ok t raw hf hi, ?_, fun f i hne => ?_, fun m h => h.write hfit hf hi raw⟩
    · rw [read_eq_ok _ hf hi, entryAt_setEntry t raw hf hi, if_pos ⟨rfl, rfl⟩]
    · have hentry : (t.setEntry frame index raw).entryAt f i = t.entryAt f i := by
        rw [entryAt_setEntry t raw hf hi, if_neg]
        rintro ⟨rfl, rfl⟩
        exact hne rfl
      unfold read
      rw [hentry]
      rfl

/-- The last two pages below `2^32`, of which one is in use: its address names it, and that of the
other one names no frame. -/
theorem faithful_sv32 :
    let t := (Tables.empty .sv32 2 ⟨0xffffe000⟩).takeFrame
    t.base.toNat % pageSize = 0 ∧ t.base.toNat + pageSize * 2 ≤ wordCount ∧ t.used ≤ 2 ∧
      t.Faithful ∧ t.frameAt ⟨0xffffe000⟩ = some 0 ∧ t.frameAt ⟨0xfffff000⟩ = none ∧
      ∃ m, t.HeldBy m := by
  intro t
  have hfit : t.base.toNat + pageSize * 2 ≤ wordCount := by decide
  have hfaithful := faithful (t := t) (by decide) hfit (by decide)
  have hregular : t.Regular := (Regular.empty _).takeFrame (by decide)
  exact ⟨by decide, hfit, by decide, hfaithful, (hfaithful.frameAt_iff _ _).mpr (by decide),
    by decide, hregular.exists_heldBy hfit⟩

end Tables

end BootLoader.Paging
