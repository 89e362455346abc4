import BootLoader.Proofs.Paging.Forest
import BootLoader.Proofs.Paging.RoundTrip

/-!
# The leaf that maps an address

`Tables.leafUnder` is the leaf at which the walk for an address ends, if it ends at one: the level
of its table, the block that it maps, and its attributes, which are all the bits of the entry
outside the address of the block. The translation of the address can be read off it
(`Tables.translate_eq_leafUnder`). Together the three parts determine the word of the entry
(`Format.eq_of_attributes`), and the leaf of a plan is the only word that has the parts of the leaf
(`Plan.Sound.leaf_iff`).
-/

namespace BootLoader.Paging

variable {F : Format} {n : Nat}

/-- What a leaf of the tables says. -/
structure Leaf where
  /-- the level of the table that holds it -/
  level : Nat
  /-- where the block that it maps starts -/
  base : PhysAddr
  /-- its bits outside the address of the block -/
  attrs : UInt64
  deriving DecidableEq, Repr

namespace Format

/-- The bits of a leaf outside the address `base` of its block. In a RISC-V entry there are some
above the page number, which decoding drops. -/
def attributes (F : Format) (raw : UInt64) (base : PhysAddr) : UInt64 :=
  UInt64.ofNat (raw.toNat - base.toNat / pageSize * F.flagSize)

/-- A leaf that decodes is no smaller than the part of it that is the address. -/
theorem le_of_decode_riscV {bits : Nat} (hbits : bits ≤ 44) {raw : UInt64} {base : PhysAddr}
    {attrs : UInt64} (h : RiscV.decode bits raw = .leaf base attrs) :
    base.toNat / pageSize * RiscV.flagCount ≤ raw.toNat := by
  unfold RiscV.decode at h
  dsimp only at h
  split at h
  · cases h
  · split at h
    · cases h
    · obtain ⟨rfl, -⟩ := Entry.leaf.inj h
      have hlt : raw.toNat / RiscV.flagCount % (1 <<< bits) < 1 <<< bits :=
        Nat.mod_lt _ (by rw [Nat.one_shiftLeft]; exact Nat.two_pow_pos _)
      have hpow : 1 <<< bits ≤ 2 ^ 44 := by
        rw [Nat.one_shiftLeft]
        exact Nat.pow_le_pow_right (by decide) hbits
      have hle := Nat.mod_le (raw.toNat / RiscV.flagCount) (1 <<< bits)
      unfold pageSize RiscV.flagCount at *
      rw [Address.toNat_ofNat_of_lt (by rw [wordCount_eq]; omega), Nat.mul_div_cancel _ (by decide)]
      omega

/-- A leaf descriptor is no smaller than the part of it that is the address. -/
theorem le_of_decode_arm {last : Bool} {level : Nat} {raw : UInt64} {base : PhysAddr}
    {attrs : UInt64} (h : Arm.decode raw level last = .leaf base attrs) :
    base.toNat ≤ raw.toNat := by
  have hle : ∀ size, Arm.outputBits size raw.toNat ≤ raw.toNat := fun size =>
    Nat.le_trans (Nat.div_mul_le_self _ _) (Nat.mod_le _ _)
  have hbase : ∀ size, (Address.ofNat (Arm.outputBits size raw.toNat) : PhysAddr).toNat ≤
      raw.toNat := by
    intro size
    rw [Address.toNat_ofNat_of_lt (Nat.lt_of_le_of_lt (hle size) raw.toNat_lt)]
    exact hle size
  unfold Arm.decode at h
  dsimp only at h
  split at h
  · cases h
  · split at h
    · cases h
    · split at h
      · cases h
      · cases h
        exact hbase _
      · cases h
        exact hbase _
      · cases h

/-- A leaf is no smaller than the part of it that is the address. -/
theorem le_of_decode {raw : UInt64} {level : Nat} {base : PhysAddr} {attrs : UInt64}
    (h : F.decode raw level = .leaf base attrs) :
    base.toNat / pageSize * F.flagSize ≤ raw.toNat := by
  cases F with
  | sv32 => exact le_of_decode_riscV (by decide) h
  | sv39 => exact le_of_decode_riscV (Nat.le_refl _) h
  | sv48 => exact le_of_decode_riscV (Nat.le_refl _) h
  | aarch64 => exact Nat.le_trans (Nat.div_mul_le_self _ _) (le_of_decode_arm h)

/-- The block and the attributes of a leaf determine its word. -/
theorem eq_of_attributes {raw raw' : UInt64} {level : Nat} {base : PhysAddr} {attrs attrs' : UInt64}
    (h : F.decode raw level = .leaf base attrs) (h' : F.decode raw' level = .leaf base attrs')
    (hsame : F.attributes raw base = F.attributes raw' base) : raw = raw' := by
  have hle := le_of_decode h
  have hle' := le_of_decode h'
  have hnat := congrArg UInt64.toNat hsame
  have hlt := raw.toNat_lt
  have hlt' := raw'.toNat_lt
  unfold attributes at hnat
  rw [UInt64.toNat_ofNat_of_lt' (by simp only [UInt64.size]; omega),
    UInt64.toNat_ofNat_of_lt' (by simp only [UInt64.size]; omega)] at hnat
  exact UInt64.toNat_inj.mp (by omega)

/-- The number of a leaf that holds its address: the page number above the bits that decoding gives
as its attributes. -/
theorem toNat_leafWord {level : Nat} {base : PhysAddr} (h : F.HoldsBlock level base)
    (memory : Memory) :
    (F.leafWord memory base level).toNat =
      base.toNat / pageSize * F.flagSize + (F.leafAttrs memory level).toNat := by
  cases F with
  | aarch64 =>
    obtain ⟨-, hbits, -⟩ := armFields_bits memory (level == aarch64.levels - 1)
    have hword := toNat_arm_encode (blockSize?_eq h.level_lt) (levelSize_dvd_addressLimit level)
      h.aligned hbits
    rw [show base.toNat % Arm.outputLimit = base.toNat from Nat.mod_eq_of_lt h.lt_limit] at hword
    have hpage : base.toNat / pageSize * flagSize .aarch64 = base.toNat :=
      Nat.div_mul_cancel (Nat.dvd_of_mod_eq_zero h.page_aligned)
    rw [hpage]
    unfold leafAttrs
    rw [UInt64.toNat_ofNat_of_lt' (Nat.lt_trans hbits (by decide))]
    exact hword
  | _ => exact toNat_encode (by decide)

/-- The attributes of a leaf that holds its address are those that decoding gives. -/
theorem attributes_leafWord {level : Nat} {base : PhysAddr} (h : F.HoldsBlock level base)
    (memory : Memory) :
    F.attributes (F.leafWord memory base level) base = F.leafAttrs memory level := by
  unfold attributes
  rw [toNat_leafWord h, Nat.add_sub_cancel_left, UInt64.ofNat_toNat]

end Format

/-! ## Looking leaves up -/

namespace Tables

variable {t : Tables F n}

/-- The leaf at which the walk for `va` ends, from the table in `frame` at `level` with `depth`
levels left. -/
def leafFrom (t : Tables F n) (va : VirtAddr) :
    (depth : Nat) → (frame : FrameId) → (level : Nat) → Option Leaf
  | 0, _, _ => none
  | depth + 1, frame, level =>
    let raw := t.entryAt frame (F.index va level)
    match F.decode raw level with
    | .invalid => none
    | .leaf base _ => some ⟨level, base, F.attributes raw base⟩
    | .next child => (t.frameAt child).bind fun frame => leafFrom t va depth frame (level + 1)

/-- The leaf that maps `va` under the table in `root`. -/
def leafUnder (t : Tables F n) (root : FrameId) (va : VirtAddr) : Option Leaf :=
  t.leafFrom va F.levels root 0

/-- A walk leads into the block of the leaf at which it ends. -/
theorem walk_eq_leafFrom (hu : t.used ≤ n) (va : VirtAddr) (depth : Nat) {frame : FrameId}
    (hf : frame < n) (level : Nat) :
    t.walk va depth frame level = .ok ((t.leafFrom va depth frame level).map fun l =>
      l.base.offset (UInt64.ofNat (F.blockOffset va l.level))) := by
  induction depth generalizing frame level with
  | zero => rfl
  | succ depth ih =>
    rw [walk_succ t va depth level hf, leafFrom]
    cases hd : F.decode (t.entryAt frame (F.index va level)) level with
    | invalid => rfl
    | leaf base attrs => rfl
    | next child =>
      dsimp only
      cases hc : t.frameAt child with
      | none => rfl
      | some c => exact ih (Nat.lt_of_lt_of_le (frameAt_lt hc) hu) (level + 1)

/-- The translation of an address leads into the block of the leaf that maps it. -/
theorem translate_eq_leafUnder (hu : t.used ≤ n) {root : FrameId} (hr : root < n) (va : VirtAddr) :
    t.translate root va = .ok ((t.leafUnder root va).map fun l =>
      l.base.offset (UInt64.ofNat (F.blockOffset va l.level))) :=
  walk_eq_leafFrom hu va F.levels hr 0

variable {root : FrameId} {va : VirtAddr} {tier : Tier} {f : FrameId}

/-- The leaf that maps an address is looked for in the table of a tier, if there is one. -/
theorem leafUnder_eq_leafFrom (htable : t.tableAt root tier (F.index va 0) = some f) :
    ∃ depth, t.leafUnder root va = t.leafFrom va (depth + 1) f tier.level := by
  obtain ⟨depth, hdepth⟩ : ∃ depth, F.levels = depth + 1 + 1 :=
    ⟨F.levels - 2, by have := F.two_le_levels; omega⟩
  unfold leafUnder
  rw [hdepth]
  cases tier with
  | top =>
    obtain rfl : root = f := Option.some.inj htable
    exact ⟨depth + 1, rfl⟩
  | intermediate =>
    obtain ⟨child, hd, hf⟩ := childAt_eq_some.mp htable
    refine ⟨depth, ?_⟩
    rw [leafFrom]
    simp only [hd, hf, Option.bind_some]
    rfl

/-- An address that selects an empty entry in the table of a tier is not mapped. -/
theorem leafUnder_eq_none (htable : t.tableAt root tier (F.index va 0) = some f)
    (hz : t.entryAt f (F.index va tier.level) = 0) : t.leafUnder root va = none := by
  obtain ⟨depth, hlookup⟩ := leafUnder_eq_leafFrom htable
  rw [hlookup, leafFrom, hz]
  simp only [Format.decode_zero]

/-- An address that selects a leaf in the table of a tier is mapped by that leaf. -/
theorem leafUnder_eq_some (htable : t.tableAt root tier (F.index va 0) = some f) {base : PhysAddr}
    {attrs : UInt64}
    (hleaf : F.decode (t.entryAt f (F.index va tier.level)) tier.level = .leaf base attrs) :
    t.leafUnder root va =
      some ⟨tier.level, base, F.attributes (t.entryAt f (F.index va tier.level)) base⟩ := by
  obtain ⟨depth, hlookup⟩ := leafUnder_eq_leafFrom htable
  rw [hlookup, leafFrom]
  simp only [hleaf]

/-- The leaf that maps an address stays while entries are added. -/
theorem Extends.leafFrom {t' : Tables F n} (h : t'.Extends t) {va : VirtAddr} {depth : Nat}
    {frame : FrameId} {level : Nat} {l : Leaf} (hl : t.leafFrom va depth frame level = some l) :
    t'.leafFrom va depth frame level = some l := by
  induction depth generalizing frame level with
  | zero => cases hl
  | succ depth ih =>
    rw [Tables.leafFrom] at hl ⊢
    have hne : t.entryAt frame (F.index va level) ≠ 0 := by
      intro hz
      simp only [hz, Format.decode_zero] at hl
      cases hl
    rw [h.entry_eq _ _ hne]
    cases hd : F.decode (t.entryAt frame (F.index va level)) level with
    | invalid =>
      simp only [hd] at hl
      cases hl
    | leaf base attrs =>
      simp only [hd] at hl
      exact hl
    | next child =>
      simp only [hd] at hl ⊢
      obtain ⟨c, hc, hl⟩ := Option.bind_eq_some_iff.mp hl
      rw [frameAt_mono h.base_eq h.used_le hc]
      exact ih hl

/-- Between two states, the second of which holds all that the first does, an address is mapped as
in the first or as in the second. -/
theorem leafUnder_between {t' t'' : Tables F n} (h : t'.Extends t) (h' : t''.Extends t')
    (root : FrameId) (va : VirtAddr) :
    t'.leafUnder root va = t.leafUnder root va ∨ t'.leafUnder root va = t''.leafUnder root va := by
  cases hl : t'.leafUnder root va with
  | some l => exact .inr (h'.leafFrom hl).symm
  | none =>
    refine .inl (Option.eq_none_iff_forall_ne_some.mpr fun l hl' => ?_).symm
    rw [show t'.leafUnder root va = some l from h.leafFrom hl'] at hl
    cases hl

/-- Between two states, the second of which holds all that the first does, an address is translated
as in the first or as in the second. -/
theorem translate_between {t' t'' : Tables F n} (h : t'.Extends t) (h' : t''.Extends t')
    (hu : t''.used ≤ n) {root : FrameId} (hr : root < n) (va : VirtAddr) :
    t'.translate root va = t.translate root va ∨
      t'.translate root va = t''.translate root va := by
  have hu' := Nat.le_trans h'.used_le hu
  rw [translate_eq_leafUnder (Nat.le_trans h.used_le hu') hr, translate_eq_leafUnder hu' hr,
    translate_eq_leafUnder hu hr]
  rcases leafUnder_between h h' root va with hsame | hsame
  · exact .inl (by rw [hsame])
  · exact .inr (by rw [hsame])

end Tables

/-! ## The leaves of a plan -/

namespace Plan

/-- What leaf number `j` of a plan says. -/
def leaf (F : Format) (p : Plan) (j : Nat) : Leaf :=
  ⟨p.tier.level, p.leafPhys j, F.leafAttrs p.memory p.tier.level⟩

namespace Sound

variable {p : Plan}

/-- The entries hold the leaves of a plan whose physical range ends within the address field. -/
theorem holdsBlock (h : p.Sound F) (hfit : p.phys.toNat + p.span ≤ F.addressLimit) {j : Nat}
    (hj : j < p.steps) : F.HoldsBlock p.tier.level (p.leafPhys j) where
  level_lt := Nat.lt_of_succ_lt h.level_lt
  aligned := h.leafPhys_aligned hj
  lt_limit := by
    have hle := leaf_le_span hj
    have hpos := h.granule_pos
    rw [h.toNat_leafPhys hj]
    omega

/-- A leaf of such a plan is stored as it is written. -/
theorem stored_leafRaw (h : p.Sound F) (hfit : p.phys.toNat + p.span ≤ F.addressLimit) {j : Nat}
    (hj : j < p.steps) : F.width.stored (p.leafRaw F j) = p.leafRaw F j :=
  Format.stored_leafWord (h.holdsBlock hfit hj) p.memory

/-- A leaf at the level of a plan says what leaf number `j` says exactly when it is that leaf. -/
theorem leaf_iff (h : p.Sound F) (hfit : p.phys.toNat + p.span ≤ F.addressLimit) {j : Nat}
    (hj : j < p.steps) {raw : UInt64} {base : PhysAddr} {attrs : UInt64}
    (hleaf : F.decode raw p.tier.level = .leaf base attrs) :
    (⟨p.tier.level, base, F.attributes raw base⟩ : Leaf) = p.leaf F j ↔ raw = p.leafRaw F j := by
  have hblock := h.holdsBlock hfit hj
  have hdecode := h.decode_leafRaw hj
  rw [h.stored_leafRaw hfit hj, Format.ofNat_mod_addressLimit hblock.lt_limit] at hdecode
  have hattrs : F.attributes (p.leafRaw F j) (p.leafPhys j) = F.leafAttrs p.memory p.tier.level :=
    Format.attributes_leafWord hblock p.memory
  constructor
  · intro hsame
    obtain ⟨-, rfl, hbits⟩ := Leaf.mk.inj hsame
    exact Format.eq_of_attributes hleaf hdecode (hbits.trans hattrs.symm)
  · rintro rfl
    obtain ⟨rfl, -⟩ := Entry.leaf.inj (hleaf.symm.trans hdecode)
    unfold leaf
    rw [hattrs]

end Sound

end Plan

end BootLoader.Paging
