import BootLoader.Proofs.Paging.Atomic
import BootLoader.Proofs.Paging.Expressible
import BootLoader.Proofs.Paging.Lookup
import BootLoader.Proofs.Paging.Ranges

/-!
# Conflicts that are none

The test for a conflict compares what two plans have in short: their tiers, their kinds of memory, and
the distances between their ranges. What matters is whether they would write different entries for one
address (`Plan.Disagree`). The test finds every such address. But the entries of the RISC-V formats have
no field for the kind of memory, so two plans that differ in that alone write the same entries, and a
conflict is reported where there is none (`Tables.disagree_iff_of_conflicts`,
`Tables.not_disagree_of_conflicts`).
-/

namespace BootLoader.Paging

variable {F : Format} {n m : Nat}

namespace Format

/-- The leaves for the kinds of memory have different low bits in a format that has a field for it. -/
theorem leafAttrs_ne_of_memory {memory memory' : Memory} (hne : memory ≠ memory') (level : Nat) :
    (leafAttrs .aarch64 memory level).toNat % flagSize .aarch64 ≠
      (leafAttrs .aarch64 memory' level).toNat % flagSize .aarch64 := by
  unfold leafAttrs
  dsimp only
  generalize (level == aarch64.levels - 1) = last
  cases memory <;> cases memory' <;> first | exact absurd rfl hne | (revert last; decide)

/-- Leaves for different kinds of memory are the same in a format that has no field for it. -/
theorem leafWord_eq_of_memory (h : F ≠ .aarch64) (memory memory' : Memory) (base : PhysAddr)
    (level : Nat) : F.leafWord memory base level = F.leafWord memory' base level := by
  cases F with
  | aarch64 => exact absurd rfl h
  | _ => rfl

end Format

namespace Plan

variable {p a b : Plan}

/-! ## The entry for an address -/

/-- Whether `word` is what a table holds once leaf number `j` of a plan, which is for the address `x`,
has been written to an entry of a table at `level`. -/
def Writes (F : Format) (p : Plan) (x level : Nat) (word : UInt64) : Prop :=
  level = p.tier.level ∧ ∃ j raw, j < p.steps ∧ p.virt.toNat + j * p.granule ≤ x ∧
    x < p.virt.toNat + j * p.granule + p.granule ∧ p.leafAt F j level = .ok raw ∧
      word = F.width.stored raw

/-- Whether two plans would write different entries for an address that both cover: entries of tables
at different levels, or different words. -/
def Disagree (F : Format) (a b : Plan) : Prop :=
  ∃ x, a.Covers x ∧ b.Covers x ∧ ∃ level level' word word', a.Writes F x level word ∧
    b.Writes F x level' word' ∧ (level, word) ≠ (level', word')

/-- The leaf of a sound plan for an address. -/
theorem Sound.writes_iff (h : p.Sound F) {x level : Nat} {word : UInt64} :
    p.Writes F x level word ↔ level = p.tier.level ∧ ∃ j, j < p.steps ∧
      (p.leafVirt j).toNat ≤ x ∧ x < (p.leafVirt j).toNat + p.granule ∧
        word = F.width.stored (p.leafRaw F j) := by
  constructor
  · rintro ⟨rfl, j, raw, hj, hle, hlt, hraw, rfl⟩
    rw [h.leafAt_eq_ok hj] at hraw
    cases hraw
    rw [← h.toNat_leafVirt hj] at hle hlt
    exact ⟨rfl, j, hj, hle, hlt, rfl⟩
  · rintro ⟨rfl, j, hj, hle, hlt, rfl⟩
    rw [h.toNat_leafVirt hj] at hle hlt
    exact ⟨rfl, j, _, hj, hle, hlt, h.leafAt_eq_ok hj, rfl⟩

/-- A sound plan has a leaf for each address that it covers. -/
theorem Sound.exists_leaf_of_covers (h : p.Sound F) {x : Nat} (hx : p.Covers x) :
    ∃ j, j < p.steps ∧ (p.leafVirt j).toNat ≤ x ∧ x < (p.leafVirt j).toNat + p.granule := by
  obtain ⟨hle, hlt⟩ := hx
  have hpos := h.granule_pos
  have hj : (x - p.virt.toNat) / p.granule < p.steps := by
    rw [Nat.div_lt_iff_lt_mul hpos]
    exact Nat.sub_lt_left_of_lt_add hle hlt
  have hsplit := Nat.div_add_mod' (x - p.virt.toNat) p.granule
  have hmod := Nat.mod_lt (x - p.virt.toNat) hpos
  refine ⟨_, hj, ?_⟩
  rw [h.toNat_leafVirt hj]
  omega

/-- A leaf starts where the granule of each of its addresses starts. -/
theorem Sound.leafVirt_eq (h : p.Sound F) {j x : Nat} (hj : j < p.steps)
    (hle : (p.leafVirt j).toNat ≤ x) (hlt : x < (p.leafVirt j).toNat + p.granule) :
    (p.leafVirt j).toNat = x / p.granule * p.granule := by
  obtain ⟨k, hk⟩ := Nat.dvd_of_mod_eq_zero (h.leafVirt_aligned hj)
  have hquot : x / p.granule = k := by
    rw [Nat.div_eq_iff h.granule_pos]
    rw [hk, Nat.mul_comm] at hle hlt
    omega
  rw [hquot, hk, Nat.mul_comm]

/-- Leaves of one size for one address start at the same virtual address. -/
theorem leafVirt_eq_of_granule (ha : a.Sound F) (hb : b.Sound F) (hgranule : a.granule = b.granule)
    {x i j : Nat} (hi : i < a.steps) (hj : j < b.steps) (hlea : (a.leafVirt i).toNat ≤ x)
    (hlta : x < (a.leafVirt i).toNat + a.granule) (hleb : (b.leafVirt j).toNat ≤ x)
    (hltb : x < (b.leafVirt j).toNat + b.granule) : a.leafVirt i = b.leafVirt j := by
  apply Address.eq_of_toNat
  calc (a.leafVirt i).toNat = x / a.granule * a.granule := ha.leafVirt_eq hi hlea hlta
    _ = x / b.granule * b.granule := by rw [hgranule]
    _ = (b.leafVirt j).toNat := (hb.leafVirt_eq hj hleb hltb).symm

/-- Leaves at one virtual address map the same block when their plans have the same distance between
their ranges. -/
theorem leafPhys_eq_iff {i j : Nat} (hvirt : a.leafVirt i = b.leafVirt j) :
    a.leafPhys i = b.leafPhys j ↔ a.relocation = b.relocation := by
  have hrawA : (a.leafPhys i).raw = (a.leafVirt i).raw - a.relocation := a.raw_leafPhys i
  have hrawB : (b.leafPhys j).raw = (a.leafVirt i).raw - b.relocation := hvirt ▸ b.raw_leafPhys j
  constructor
  · intro hsame
    rw [hsame, hrawB] at hrawA
    exact (UInt64.sub_right_inj _).mp hrawA.symm
  · intro hsame
    rw [hsame, ← hrawB] at hrawA
    exact Address.eq_of_toNat (congrArg UInt64.toNat hrawA)

/-! ## Plans that disagree -/

section Disagree

variable (ha : a.Sound F) (hb : b.Sound F) (hfita : a.phys.toNat + a.span ≤ F.addressLimit)
  (hfitb : b.phys.toNat + b.span ≤ F.addressLimit)
include ha hb hfita hfitb

/-- Leaves of one tier at one virtual address are the same words when they map the same block, and are
for the same kind of memory or have no field for it. -/
theorem leafRaw_eq_iff (htier : a.tier = b.tier) {i j : Nat} (hi : i < a.steps) (hj : j < b.steps)
    (hvirt : a.leafVirt i = b.leafVirt j) :
    a.leafRaw F i = b.leafRaw F j ↔
      a.relocation = b.relocation ∧ (a.memory = b.memory ∨ F ≠ .aarch64) := by
  have hblocka := ha.holdsBlock hfita hi
  have hblockb := hb.holdsBlock hfitb hj
  rw [← leafPhys_eq_iff hvirt]
  unfold leafRaw
  constructor
  · intro hraw
    -- The address field tells the blocks apart, and the low bits the kinds of memory.
    have hbase : a.leafPhys i = b.leafPhys j := by
      apply Address.eq_of_toNat
      rw [← (Format.fields_leafWord hblocka a.memory).1, hraw,
        (Format.fields_leafWord hblockb b.memory).1]
    refine ⟨hbase, Classical.or_iff_not_imp_right.mpr fun harm => ?_⟩
    obtain rfl := Classical.not_not.mp harm
    by_contra hmemory
    refine Format.leafAttrs_ne_of_memory hmemory a.tier.level ?_
    rw [← (Format.fields_leafWord hblocka a.memory).2, hraw, htier,
      (Format.fields_leafWord hblockb b.memory).2]
  · rintro ⟨hbase, hmemory⟩
    rw [hbase, htier]
    rcases hmemory with hmemory | hmemory
    · rw [hmemory]
    · exact Format.leafWord_eq_of_memory hmemory _ _ _ _

/-- Two plans disagree when their ranges meet, except if they have the same tier and the same distance
between their ranges, and are for the same kind of memory or have no field for it. -/
theorem disagree_iff :
    a.Disagree F b ↔ a.Meets b ∧
      ¬(a.tier = b.tier ∧ a.relocation = b.relocation ∧ (a.memory = b.memory ∨ F ≠ .aarch64)) := by
  constructor
  · rintro ⟨x, ⟨hlea, hlta⟩, ⟨hleb, hltb⟩, level, level', word, word', hwa, hwb, hne⟩
    refine ⟨⟨by omega, by omega⟩, ?_⟩
    rintro ⟨htier, hsame⟩
    obtain ⟨rfl, i, hi, hleI, hltI, rfl⟩ := ha.writes_iff.mp hwa
    obtain ⟨rfl, j, hj, hleJ, hltJ, rfl⟩ := hb.writes_iff.mp hwb
    have hgranule : a.granule = b.granule := by rw [ha.granule_eq, hb.granule_eq, htier]
    have hvirt := leafVirt_eq_of_granule ha hb hgranule hi hj hleI hltI hleJ hltJ
    have hraw := (leafRaw_eq_iff ha hb hfita hfitb htier hi hj hvirt).mpr hsame
    exact hne (by rw [htier, hraw])
  · rintro ⟨hmeets, hdiffer⟩
    obtain ⟨x, hxa, hxb⟩ := hmeets.exists_covers ha hb
    obtain ⟨i, hi, hleI, hltI⟩ := ha.exists_leaf_of_covers hxa
    obtain ⟨j, hj, hleJ, hltJ⟩ := hb.exists_leaf_of_covers hxb
    refine ⟨x, hxa, hxb, _, _, _, _, ha.writes_iff.mpr ⟨rfl, i, hi, hleI, hltI, rfl⟩,
      hb.writes_iff.mpr ⟨rfl, j, hj, hleJ, hltJ, rfl⟩, fun hsame => hdiffer ?_⟩
    obtain ⟨hlevel, hword⟩ := Prod.mk.inj hsame
    rw [ha.stored_leafRaw hfita hi, hb.stored_leafRaw hfitb hj] at hword
    have htier : a.tier = b.tier := by
      revert hlevel
      cases a.tier <;> cases b.tier <;> decide
    have hgranule : a.granule = b.granule := by rw [ha.granule_eq, hb.granule_eq, htier]
    have hvirt := leafVirt_eq_of_granule ha hb hgranule hi hj hleI hltI hleJ hltJ
    exact ⟨htier, (leafRaw_eq_iff ha hb hfita hfitb htier hi hj hvirt).mp hword⟩

end Disagree

end Plan

namespace Tables

/-- What the test for a conflict says of two plans that are made, for roots of any tables, when the
entries hold their physical addresses. It misses no address for which the plans would write different
entries. A conflict that it reports is real when the tiers or the distances between the ranges differ,
or the format is the one whose entries have a field for the kind of memory; otherwise the plans write
the same entries wherever both cover. -/
theorem disagree_iff_of_conflicts {t : Tables F n} {t' : Tables F m} {root root' : FrameId}
    {a b : Plan} (ha : t.Plans root a) (hb : t'.Plans root' b)
    (hfita : a.phys.toNat + a.span ≤ F.addressLimit)
    (hfitb : b.phys.toNat + b.span ≤ F.addressLimit) :
    ∃ reported, a.conflicts b = .ok reported ∧ (a.Disagree F b → reported = true) ∧
      (reported = true → (a.Disagree F b ↔
        a.tier ≠ b.tier ∨ a.relocation ≠ b.relocation ∨ F = .aarch64)) := by
  have hdisagree := Plan.disagree_iff ha.sound hb.sound hfita hfitb
  refine ⟨_, Plan.conflicts_eq_ok ha.sound hb.sound, fun hd => ?_, fun hreported => ?_⟩
  · obtain ⟨hmeets, hdiffer⟩ := hdisagree.mp hd
    refine decide_eq_true ⟨hmeets, ?_⟩
    by_contra hsame
    obtain ⟨htier, hsame⟩ := not_or.mp hsame
    obtain ⟨hmemory, hrelocation⟩ := not_or.mp hsame
    exact hdiffer ⟨Classical.not_not.mp htier, Classical.not_not.mp hrelocation,
      .inl (Classical.not_not.mp hmemory)⟩
  · obtain ⟨hmeets, hdiffer⟩ := of_decide_eq_true hreported
    rw [hdisagree]
    constructor
    · rintro ⟨-, hno⟩
      by_contra hsame
      obtain ⟨htier, hsame⟩ := not_or.mp hsame
      obtain ⟨hrelocation, harm⟩ := not_or.mp hsame
      exact hno ⟨Classical.not_not.mp htier, Classical.not_not.mp hrelocation, .inr harm⟩
    · intro hreal
      refine ⟨hmeets, ?_⟩
      rintro ⟨htier, hrelocation, hmemory⟩
      -- What is left of the test is the kind of memory, and then the entries have no field for it.
      have hkinds : a.memory ≠ b.memory :=
        (hdiffer.resolve_left (not_not_intro htier)).resolve_right (not_not_intro hrelocation)
      have harm : F = .aarch64 :=
        (hreal.resolve_left (not_not_intro htier)).resolve_left (not_not_intro hrelocation)
      exact hmemory.elim hkinds fun hother => hother harm

/-- In the format with a field for the kind of memory, the loader's block and a device mapping of the
same block conflict, and the conflict is real. -/
theorem disagree_iff_of_conflicts_aarch64 :
    let t := (Tables.empty .aarch64 1 ⟨0x40080000⟩).takeFrame
    ∃ a b, t.plan 0 ⟨0x40000000⟩ ⟨0x40000000⟩ 0x100000 .normal = .ok a ∧
      t.plan 0 ⟨0x40000000⟩ ⟨0x40000000⟩ 0x1000 .device = .ok b ∧
      a.phys.toNat + a.span ≤ Format.addressLimit .aarch64 ∧
      b.phys.toNat + b.span ≤ Format.addressLimit .aarch64 ∧ a.conflicts b = .ok true ∧
      a.Disagree .aarch64 b := by
  intro t
  have hplan : t.plan 0 ⟨0x40000000⟩ ⟨0x40000000⟩ 0x100000 .normal =
      .ok ⟨.top, ⟨0x40000000⟩, ⟨0x40000000⟩, 1, 0x40000000, 0, .normal⟩ := by
    decide +kernel
  have hplan' : t.plan 0 ⟨0x40000000⟩ ⟨0x40000000⟩ 0x1000 .device =
      .ok ⟨.top, ⟨0x40000000⟩, ⟨0x40000000⟩, 1, 0x40000000, 0, .device⟩ := by
    decide +kernel
  obtain ⟨reported, htest, -, hreal⟩ := disagree_iff_of_conflicts (.inl ⟨_, _, _, _, hplan⟩)
    (.inl ⟨_, _, _, _, hplan'⟩) (by decide) (by decide)
  have hconflict : Plan.conflicts ⟨.top, ⟨0x40000000⟩, ⟨0x40000000⟩, 1, 0x40000000, 0, .normal⟩
      ⟨.top, ⟨0x40000000⟩, ⟨0x40000000⟩, 1, 0x40000000, 0, .device⟩ = .ok true := by
    decide
  obtain rfl : true = reported := Except.ok.inj (hconflict.symm.trans htest)
  exact ⟨_, _, hplan, hplan', by decide, by decide, hconflict, (hreal rfl).mpr (.inr (.inr rfl))⟩

/-- A conflict is reported between a mapping of normal memory and one of device registers that write
the same leaf: the format has one leaf for both. The format can express both plans. -/
theorem not_disagree_of_conflicts :
    let t := (Tables.empty .sv39 1 ⟨0x80400000⟩).takeFrame
    ∃ a b, t.plan 0 ⟨0⟩ ⟨0⟩ 0x200000 .normal = .ok a ∧ t.plan 0 ⟨0⟩ ⟨0⟩ 0x1000 .device = .ok b ∧
      a.Expressible .sv39 ∧ b.Expressible .sv39 ∧ a.conflicts b = .ok true ∧
      ¬a.Disagree .sv39 b ∧ a.leafAt .sv39 0 0 = b.leafAt .sv39 0 0 := by
  intro t
  have hplan : t.plan 0 ⟨0⟩ ⟨0⟩ 0x200000 .normal =
      .ok ⟨.top, ⟨0⟩, ⟨0⟩, 1, 0x40000000, 0, .normal⟩ := by
    decide +kernel
  have hplan' : t.plan 0 ⟨0⟩ ⟨0⟩ 0x1000 .device =
      .ok ⟨.top, ⟨0⟩, ⟨0⟩, 1, 0x40000000, 0, .device⟩ := by
    decide +kernel
  have ha : t.Plans 0 _ := .inl ⟨_, _, _, _, hplan⟩
  have hb : t.Plans 0 _ := .inl ⟨_, _, _, _, hplan'⟩
  refine ⟨_, _, hplan, hplan', ha.sound.expressible_iff.mpr (by decide),
    hb.sound.expressible_iff.mpr (by decide), by decide, ?_, by decide⟩
  rw [Plan.disagree_iff ha.sound hb.sound (by decide) (by decide)]
  decide

end Tables

end BootLoader.Paging
