import BootLoader.Proofs.Paging.Care
import BootLoader.Proofs.Paging.Layout

/-!
# Canonical addresses

The bits of a canonical address above those that index the tables are all equal, so a canonical address
is determined by its bits below (`Format.eq_of_canonical`). Plans for canonical addresses can be
compared by their ranges: when the test between them finds no conflict, their leaves under a root entry
agree (`Plan.slot_agree`), and they do not clash there (`Plan.not_clashes`).
-/

namespace BootLoader.Paging

variable {F : Format}

namespace Format

/-- The number of canonical addresses that start at zero. -/
def lowLimit : Format → Nat
  | sv32 => 0x100000000
  | sv39 => 0x4000000000
  | sv48 => 0x800000000000
  | aarch64 => 0x8000000000

/-- Whether the tables of the format translate the address as it is: the addresses at either end of
the address space, or with two levels those of the first four GiB. -/
def IsCanonical (F : Format) (a : Nat) : Prop :=
  a < F.lowLimit ∨ (F ≠ sv32 ∧ wordCount - F.lowLimit ≤ a)

instance (a : Nat) : Decidable (F.IsCanonical a) := inferInstanceAs (Decidable (_ ∨ _))

/-- A root covers the addresses that start at zero. -/
theorem lowLimit_le_coverage (F : Format) : F.lowLimit ≤ F.coverage := by cases F <;> decide

/-- An entry can hold the addresses that start at zero. -/
theorem lowLimit_le_addressLimit (F : Format) : F.lowLimit ≤ F.addressLimit := by
  cases F <;> decide

/-- A canonical address that an entry can hold is one of those that start at zero. -/
theorem lt_lowLimit {a : Nat} (h : F.IsCanonical a) (ha : a < F.addressLimit) : a < F.lowLimit := by
  rcases h with h | ⟨hne, hhigh⟩
  · exact h
  · have hroom : F ≠ sv32 → F.addressLimit + F.lowLimit ≤ wordCount := by cases F <;> decide
    have := hroom hne
    omega

/-- In a format with one root, a canonical address is determined by its place under the root. -/
theorem eq_of_canonical (hsplit : F.splitRoots = false) {a b : Nat} (ha : a < F.lowLimit)
    (hb : F.IsCanonical b) (hword : b < wordCount) (h : a % F.coverage = b % F.coverage) : a = b := by
  rcases hb with hb | ⟨hne, hhigh⟩
  · rwa [Nat.mod_eq_of_lt (Nat.lt_of_lt_of_le ha F.lowLimit_le_coverage),
      Nat.mod_eq_of_lt (Nat.lt_of_lt_of_le hb F.lowLimit_le_coverage)] at h
  · -- A canonical address at the other end selects another half of the root.
    exfalso
    rw [wordCount_eq] at hhigh hword
    cases F with
    | sv32 => exact hne rfl
    | sv39 =>
      have hcoverage : coverage .sv39 = 549755813888 := rfl
      rw [hcoverage] at h
      simp only [lowLimit] at ha hhigh
      omega
    | sv48 =>
      have hcoverage : coverage .sv48 = 281474976710656 := rfl
      rw [hcoverage] at h
      simp only [lowLimit] at ha hhigh
      omega
    | aarch64 => cases hsplit

/-- An address of the same block is not below a multiple of the size of the block either. -/
theorem le_of_div_eq {a b g m : Nat} (hd : g ∣ m) (h : a / g = b / g) (hle : m ≤ a) : m ≤ b := by
  calc m = m / g * g := (Nat.div_mul_cancel hd).symm
    _ ≤ a / g * g := Nat.mul_le_mul_right g (Nat.div_le_div_right hle)
    _ = b / g * g := by rw [h]
    _ ≤ b := Nat.div_mul_le_self b g

/-- The block of a canonical address is canonical. -/
theorem canonical_of_block {a b : Nat} (tier : Tier)
    (h : a / F.levelSize tier.level = b / F.levelSize tier.level) (hb : F.IsCanonical b) :
    F.IsCanonical a := by
  have hlow : F.levelSize tier.level ∣ F.lowLimit := by cases F <;> cases tier <;> decide
  have hhigh : F.levelSize tier.level ∣ wordCount - F.lowLimit := by
    cases F <;> cases tier <;> decide
  -- Both ends of the canonical addresses are ends of blocks.
  rcases hb with hb | ⟨hne, hb⟩
  · exact .inl (Nat.lt_of_not_le fun hle => Nat.not_le_of_lt hb (le_of_div_eq hlow h hle))
  · exact .inr ⟨hne, le_of_div_eq hhigh h.symm hb⟩

end Format

namespace Plan

/-- Whether `a` is an address of the virtual range of a plan. -/
def Covers (p : Plan) (a : Nat) : Prop := p.virt.toNat ≤ a ∧ a < p.virt.toNat + p.span

/-- A plan maps the addresses that are congruent to those of its range. -/
theorem Sound.reach_lt_iff {p : Plan} (h : p.Sound F) {va : VirtAddr} :
    p.reach F va < p.span ↔ ∃ a, a % F.coverage = va.toNat % F.coverage ∧ p.Covers a := by
  constructor
  · intro hva
    exact ⟨p.virt.toNat + p.reach F va, add_reach F p va, by omega, by omega⟩
  · rintro ⟨a, hmod, hle, hlt⟩
    have hspan := h.span_le
    rw [reach_eq (d := a - p.virt.toNat) (by omega) (by rw [← hmod]; congr 1; omega)]
    omega

/-- The address to which a leaf maps, from its virtual address. -/
theorem raw_leafPhys (p : Plan) (j : Nat) :
    (p.leafPhys j).raw = (p.leafVirt j).raw - p.relocation := by
  unfold leafPhys leafVirt relocation Address.offset
  grind

section Agree

variable {q p : Plan}

/-- Plans whose addresses are equal when they are congruent, and between which the test finds no
conflict, have the same leaf where one address selects a leaf of each. -/
theorem leaf_agree (hq : q.Sound F) (hp : p.Sound F)
    (hequal : ∀ a b, q.Covers a → p.Covers b → a % F.coverage = b % F.coverage → a = b)
    (hno : ¬p.Conflicts q) {i j : Nat} (hi : i < q.steps) (hj : j < p.steps) (va : VirtAddr)
    (hslotQ : F.index va 0 = q.slot F i) (hplaceQ : F.index va q.tier.level = q.place F i)
    (hslotP : F.index va 0 = p.slot F j) (hplaceP : F.index va p.tier.level = p.place F j) :
    q.tier = p.tier ∧ q.leafRaw F i = p.leafRaw F j := by
  have hreachQ := hq.reach_of_leaf hi hslotQ hplaceQ
  have hreachP := hp.reach_of_leaf hj hslotP hplaceP
  have hinQ := hq.reach_lt_span_iff.mpr ⟨i, hi, hslotQ, hplaceQ⟩
  have hinP := hp.reach_lt_span_iff.mpr ⟨j, hj, hslotP, hplaceP⟩
  -- The addresses of the two ranges to which `va` is congruent are one.
  have hsame := hequal (q.virt.toNat + q.reach F va) (p.virt.toNat + p.reach F va)
    ⟨by omega, by omega⟩ ⟨by omega, by omega⟩ ((add_reach F q va).trans (add_reach F p va).symm)
  have hmeets : p.Meets q := ⟨by omega, by omega⟩
  have hkind : p.tier = q.tier ∧ p.memory = q.memory ∧ p.relocation = q.relocation := by
    unfold Conflicts at hno
    simpa only [hmeets, true_and, not_or, ne_eq, Classical.not_not] using hno
  obtain ⟨htier, hmemory, hrelocation⟩ := hkind
  -- The leaves are of one size, so they start at the same address, and map the same block to it.
  have hvirt : p.leafVirt j = q.leafVirt i := by
    rw [htier] at hreachP
    apply Address.eq_of_toNat
    rw [hp.toNat_leafVirt hj, hq.toNat_leafVirt hi]
    omega
  have hphys : p.leafPhys j = q.leafPhys i := by
    have hraw := p.raw_leafPhys j
    rw [hvirt, hrelocation, ← raw_leafPhys] at hraw
    exact Address.eq_of_toNat (congrArg UInt64.toNat hraw)
  refine ⟨htier.symm, ?_⟩
  unfold leafRaw
  rw [hmemory, htier, hphys]

/-- The leaves of such plans under one root entry are of one tier, and are the same at one place. -/
theorem slot_agree (hq : q.Sound F) (hp : p.Sound F)
    (hequal : ∀ a b, q.Covers a → p.Covers b → a % F.coverage = b % F.coverage → a = b)
    (hno : ¬p.Conflicts q) {i j : Nat} (hi : i < q.steps) (hj : j < p.steps)
    (hslot : q.slot F i = p.slot F j) :
    q.tier = p.tier ∧ (q.place F i = p.place F j → q.leafRaw F i = p.leafRaw F j) := by
  have hleaf := leaf_agree hq hp hequal hno hi hj
  by_cases htier : q.tier = p.tier
  · refine ⟨htier, fun hplace => (hleaf (q.leafVirt i) rfl rfl hslot ?_).2⟩
    rw [← htier]
    exact hplace
  · -- Of different tiers, one is the top tier: the address of the other leaf selects both.
    refine absurd ?_ htier
    cases htop : q.tier with
    | top =>
      have hplace : F.index (p.leafVirt j) q.tier.level = q.place F i := by
        rw [Sound.place_eq_slot htop, htop]
        exact hslot.symm
      exact htop ▸ (hleaf (p.leafVirt j) hslot.symm hplace rfl rfl).1
    | intermediate =>
      cases htop' : p.tier with
      | top =>
        have hplace : F.index (q.leafVirt i) p.tier.level = p.place F j := by
          rw [Sound.place_eq_slot htop', htop']
          exact hslot
        have hsame := (hleaf (q.leafVirt i) rfl rfl hslot hplace).1
        rwa [htop, htop'] at hsame
      | intermediate => rfl

/-- Such plans, the first of them of the top tier, do not clash. -/
theorem not_clashes (hq : q.Sound F) (htop : q.tier = .top) (hp : p.Sound F)
    (hequal : ∀ a b, q.Covers a → p.Covers b → a % F.coverage = b % F.coverage → a = b)
    (hno : ¬p.Conflicts q) : ¬q.Clashes F p := by
  rintro ⟨i, hi, j, hj, hslot, hdiff⟩
  obtain ⟨htier, hleaf⟩ := slot_agree hq hp hequal hno hi hj hslot
  rw [htop] at htier
  refine hdiff htier.symm (congrArg _ (hleaf ?_))
  rw [Sound.place_eq_slot htop, Sound.place_eq_slot htier.symm, hslot]

end Agree

end Plan

end BootLoader.Paging
