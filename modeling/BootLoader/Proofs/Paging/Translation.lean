import BootLoader.Proofs.Paging.Performing

/-!
# Translation under a performed plan

The walk reads an address through its index bits and its offset in a block, so a translation depends
only on the address modulo the coverage, whatever the tables hold (`translate_congr`). Under a root
of a forest, performing a plan makes the storage translate the range of the plan as the plan says,
and leaves every other translation as it was (`Performs.translate`); where the range was mapped
before, it was mapped to the same addresses (`Performs.image_of_translate`).
-/

namespace BootLoader.Paging.Tables

variable {F : Format} {n : Nat}

/-- A walk depends on the address modulo the coverage. -/
theorem walk_congr (t : Tables F n) {va wa : VirtAddr}
    (h : va.toNat % F.coverage = wa.toNat % F.coverage) (depth : Nat) (frame : FrameId)
    (level : Nat) : t.walk va depth frame level = t.walk wa depth frame level := by
  induction depth generalizing frame level with
  | zero => rfl
  | succ depth ih =>
    unfold walk
    rw [Format.index_congr h, Format.blockOffset_congr h]
    simp only [ih]

/-- A translation depends on the address modulo the coverage. -/
theorem translate_congr (t : Tables F n) (root : FrameId) {va wa : VirtAddr}
    (h : va.toNat % F.coverage = wa.toNat % F.coverage) :
    t.translate root va = t.translate root wa := t.walk_congr h _ _ _

/-- The mapping under a root for which the plans `made`, each made for its root, are performed: the
image of an address under the first of them that has one. -/
def promised (F : Format) (made : List (FrameId × Plan)) (root : FrameId) (va : VirtAddr) :
    Option PhysAddr :=
  made.findSome? fun m => if m.1 = root then m.2.image F va else none

variable {t : Tables F n} {low : FrameId} {roots : List FrameId} {root : FrameId} {p : Plan}

/-- A walk from a root of a forest ends at one address. -/
theorem Forest.walkEnds_unique (h : t.Forest low roots) {r : FrameId} (hr : r ∈ roots)
    {va : VirtAddr} {found found' : Option PhysAddr} (hw : t.WalkEnds r va found)
    (hw' : t.WalkEnds r va found') : found = found' := by
  have he := (h.translate_eq hr hw).symm.trans (h.translate_eq hr hw')
  injection he

namespace Performs

variable {first last : Nat} {es : List Edit}

/-- A child in use before the leaves were written was the same child then. -/
theorem childAt_of_lt (h : t.Performs root p first last es) (hf : t.Forest low roots)
    (hf' : (t.after es).Forest low roots) (hp : p.Sound F) (hlast : last ≤ p.steps)
    {r : FrameId} (hr : r ∈ roots) (hroot : root ∈ roots) {s : Nat} {c : FrameId}
    (hc : (t.after es).childAt r s = some c) (hold : c < t.used) : t.childAt r s = some c := by
  -- An entry that has been written is a leaf, or a pointer at a frame that was not in use.
  by_cases hsame : (t.after es).entryAt r s = t.entryAt r s
  · exact hf.childAt_of_entry_eq (h.accepted.extends hf.regular) hr hsame hc
  obtain ⟨raw, hmem⟩ := h.accepted.mem_of_entryAt_ne hf.regular hsame
  rcases h.write_of_mem r s raw hmem with ⟨j, hge, hlt, htable, rfl, rfl⟩ | ⟨rfl, -, -, c', hc'⟩
  · -- A leaf of the top tier points at no child.
    have hj : j < p.steps := Nat.lt_of_lt_of_le hlt hlast
    obtain ⟨-, htier, -⟩ := hf'.tableAt_inj hroot hr htable (tableAt_top _ r 0)
    have hleaf := hp.decode_leafRaw hj
    rw [← h.entryAt_leaf hf.regular hp hj hmem, htier] at hleaf
    exact absurd ⟨_, _, hleaf⟩ (not_isLeaf_of_childAt hc)
  · -- A pointer that has been written points at a new child.
    obtain rfl : c' = c := Option.some.inj (hc'.2.symm.trans hc)
    exact absurd hold (Nat.not_lt_of_le hc'.1)

/-- The address of a leaf that has been written is where the walk ends. -/
theorem walkEnds_image (h : t.Performs root p 0 p.steps es) (ht : t.Regular) (hp : p.Sound F)
    (hfit : p.phys.toNat + p.span ≤ F.addressLimit) {va : VirtAddr}
    (hva : p.reach F va < p.span) : (t.after es).WalkEnds root va (p.image F va) := by
  obtain ⟨j, hj, hslot, hplace, hreach⟩ := hp.exists_leaf hva
  obtain ⟨f, htable, hmem⟩ := h.leaf_mem j (Nat.zero_le j) hj
  have hle := Plan.Sound.leaf_le_span hj
  have hpos := hp.granule_pos
  have hend := hp.phys_end
  have hoff := Format.blockOffset_lt (F := F) va p.tier.level
  rw [← hp.granule_eq] at hoff
  have hphys := hp.toNat_leafPhys hj
  have hentry := hp.decode_leafRaw hj
  rw [← h.entryAt_leaf ht hp hj hmem, ← hplace, Nat.mod_eq_of_lt (by omega),
    Address.ofNat_toNat] at hentry
  have hends := WalkEnds.leaf p.tier f _ _ (hslot ▸ htable) hentry
  have himage : p.image F va =
      some ((p.leafPhys j).offset (UInt64.ofNat (F.blockOffset va p.tier.level))) := by
    unfold Plan.image Plan.leafPhys
    rw [if_pos hva, hreach, Address.offset_offset (by omega)]
  rw [himage]
  exact hends

/-- A leaf outside the range of the plan, or under another root, at which a walk ends has been
there before. -/
theorem walkEnds_of_outside (h : t.Performs root p 0 p.steps es) (hf : t.Forest low roots)
    (hf' : (t.after es).Forest low roots) (hp : p.Sound F) (hroot : root ∈ roots) {r : FrameId}
    (hr : r ∈ roots) {va : VirtAddr} (hout : ¬(r = root ∧ p.reach F va < p.span)) {pa : PhysAddr}
    (hw : (t.after es).WalkEnds r va (some pa)) : t.WalkEnds r va (some pa) := by
  cases hw with
  | leaf tier f base attrs htable hentry =>
  have hother : ∀ j, 0 ≤ j → j < p.steps → ¬(r = root ∧ tier = p.tier ∧
      p.slot F j = F.index va 0 ∧ p.place F j = F.index va tier.level) := by
    rintro j - hj ⟨hrr, rfl, hslot, hplace⟩
    exact hout ⟨hrr, hp.reach_lt_span_iff.mpr ⟨j, hj, hslot.symm, hplace.symm⟩⟩
  have htop : tier = .top → F.index va tier.level = F.index va 0 := by
    rintro rfl
    rfl
  rcases h.entryAt_eq hf.regular hf' hroot hr htable htop hother with
    hsame | ⟨rfl, -, c, -, hc⟩
  · rw [hsame] at hentry
    refine .leaf tier f base attrs ?_ hentry
    cases tier with
    | top => exact htable
    | intermediate =>
      -- A frame that held a leaf was in use.
      refine h.childAt_of_lt hf hf' hp (Nat.le_refl _) hr hroot htable ?_
      refine Nat.lt_of_not_le fun hfree => Format.IsLeaf.ne_zero ⟨base, attrs, hentry⟩ ?_
      exact hf.regular.free_zero f hfree _
  · obtain rfl : r = f := Option.some.inj htable
    exact absurd ⟨base, attrs, hentry⟩ (not_isLeaf_of_childAt hc)

/-- After a plan has been performed, its range is translated as the plan says, and every other
address, and every address under another root, as before. -/
theorem translate (h : t.Performs root p 0 p.steps es) (hf : t.Forest low roots)
    (hf' : (t.after es).Forest low roots) (hp : p.Sound F)
    (hfit : p.phys.toNat + p.span ≤ F.addressLimit) (hroot : root ∈ roots) {r : FrameId}
    (hr : r ∈ roots) (va : VirtAddr) :
    (t.after es).translate r va =
      if r = root ∧ p.reach F va < p.span then .ok (p.image F va) else t.translate r va := by
  split
  · rename_i hin
    obtain ⟨rfl, hva⟩ := hin
    exact hf'.translate_eq hr (h.walkEnds_image hf.regular hp hfit hva)
  · rename_i hout
    obtain ⟨found, hw⟩ := hf.walkEnds hr va
    obtain ⟨found', hw'⟩ := hf'.walkEnds hr va
    rw [hf.translate_eq hr hw, hf'.translate_eq hr hw']
    -- What is found on either side is found on the other.
    have hext := h.accepted.extends hf.regular
    cases found with
    | some pa => exact congrArg _ (hf'.walkEnds_unique hr hw' (hw.extends hext))
    | none =>
      cases found' with
      | none => rfl
      | some pa =>
        have hback := h.walkEnds_of_outside hf hf' hp hroot hr hout hw'
        exact absurd (hf.walkEnds_unique hr hw hback) (by intro he; cases he)

/-- Where the range of a performed plan was mapped before, it was mapped as the plan says. -/
theorem image_of_translate (h : t.Performs root p 0 p.steps es) (hf : t.Forest low roots)
    (hf' : (t.after es).Forest low roots) (hp : p.Sound F)
    (hfit : p.phys.toNat + p.span ≤ F.addressLimit) (hroot : root ∈ roots) {va : VirtAddr}
    (hva : p.reach F va < p.span) {pa : PhysAddr}
    (htranslate : t.translate root va = .ok (some pa)) : p.image F va = some pa := by
  obtain ⟨found, hw⟩ := hf.walkEnds hroot va
  rw [hf.translate_eq hroot hw] at htranslate
  injection htranslate with hfound
  subst hfound
  exact hf'.walkEnds_unique hroot (h.walkEnds_image hf.regular hp hfit hva)
    (hw.extends (h.accepted.extends hf.regular))

/-- A plan that is performed after the plans `made` adds its mapping to theirs. -/
theorem translate_promised (h : t.Performs root p 0 p.steps es) (hf : t.Forest low roots)
    (hf' : (t.after es).Forest low roots) (hp : p.Sound F)
    (hfit : p.phys.toNat + p.span ≤ F.addressLimit) (hroot : root ∈ roots) {r : FrameId}
    (hr : r ∈ roots) {va : VirtAddr} {made : List (FrameId × Plan)}
    (hbefore : t.translate r va = .ok (promised F made r va)) :
    (t.after es).translate r va = .ok (promised F (made ++ [(root, p)]) r va) := by
  have hmade : promised F (made ++ [(root, p)]) r va =
      (promised F made r va).or (if root = r then p.image F va else none) := by
    unfold promised
    rw [List.findSome?_append, List.findSome?_singleton]
  rw [hmade, h.translate hf hf' hp hfit hroot hr]
  split
  · rename_i hin
    obtain ⟨rfl, hva⟩ := hin
    rw [if_pos rfl]
    -- Either nothing was promised here, or what the plan says.
    cases hm : promised F made r va with
    | none => rfl
    | some pa =>
      rw [hm] at hbefore
      rw [h.image_of_translate hf hf' hp hfit hr hva hbefore]
      rfl
  · rename_i hout
    have hnone : (if root = r then p.image F va else none) = none := by
      split
      · rename_i hrr
        exact if_neg fun hva => hout ⟨hrr.symm, hva⟩
      · rfl
    rw [hnone, Option.or_none, hbefore]

end Performs

end BootLoader.Paging.Tables
