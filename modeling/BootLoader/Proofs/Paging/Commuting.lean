import BootLoader.Proofs.Paging.Canonical
import BootLoader.Proofs.Paging.Raising

/-!
# Plans that do not conflict commute

Two plans that are made for one root are each made without regard to the other, and the tables that
one finds are not those for which it was made once the other has been performed. When the test finds
no conflict between them, their leaves under a root entry are nevertheless of one tier, and those at
one place are the same (`Plan.slot_agree`), so the first one leaves the places of the second
(`Tables.Forest.apply_both`). A child that both want is added by the first of them alone, and so its
frame depends on the order; the translations do not (`Tables.Raised.plans_commute`).

The test compares the ranges of the plans as numbers. It is conclusive for plans whose addresses are
equal when they are congruent modulo the coverage of a root.
-/

namespace BootLoader.Paging

variable {F : Format} {n : Nat}

/-- Plans conflict whichever of them is asked. -/
theorem Plan.Conflicts.symm {a b : Plan} (h : a.Conflicts b) : b.Conflicts a := by
  obtain ⟨⟨hleft, hright⟩, hkind⟩ := h
  exact ⟨⟨hright, hleft⟩, hkind.imp Ne.symm (Or.imp Ne.symm Ne.symm)⟩

namespace Tables

/-- What performing two plans under `root`, in one order or the other, makes of the translations of
the tables `t` under the given roots: each plan maps its range, and nothing else changes. -/
structure MapsBoth (t t' : Tables F n) (roots : List FrameId) (root : FrameId) (a b : Plan) :
    Prop where
  /-- the range of the one plan is mapped -/
  left : ∀ va, a.reach F va < a.span → t'.translate root va = .ok (a.image F va)
  /-- the range of the other plan is mapped -/
  right : ∀ va, b.reach F va < b.span → t'.translate root va = .ok (b.image F va)
  /-- other addresses, and addresses under other roots, lead where they led -/
  unchanged : ∀ r ∈ roots, ∀ va,
    (r = root → ¬a.reach F va < a.span ∧ ¬b.reach F va < b.span) →
      t'.translate r va = t.translate r va

namespace MapsBoth

variable {t t' t'' : Tables F n} {roots : List FrameId} {root : FrameId} {a b : Plan}

/-- The plans can be exchanged. -/
theorem symm (h : MapsBoth t t' roots root a b) : MapsBoth t t' roots root b a where
  left := h.right
  right := h.left
  unchanged := fun r hr va hout => h.unchanged r hr va fun he => (hout he).symm

/-- All translations are determined. -/
theorem translate_eq (h : MapsBoth t t' roots root a b) (h' : MapsBoth t t'' roots root a b)
    {r : FrameId} (hr : r ∈ roots) (va : VirtAddr) : t'.translate r va = t''.translate r va := by
  by_cases hout : r = root → ¬a.reach F va < a.span ∧ ¬b.reach F va < b.span
  · rw [h.unchanged r hr va hout, h'.unchanged r hr va hout]
  · obtain ⟨rfl, hin⟩ := Classical.not_imp.mp hout
    by_cases ha : a.reach F va < a.span
    · rw [h.left va ha, h'.left va ha]
    · have hb := Classical.not_not.mp fun hb => hin ⟨ha, hb⟩
      rw [h.right va hb, h'.right va hb]

end MapsBoth

section Both

variable {low : FrameId} {roots : List FrameId} {root : FrameId} {a b : Plan}

/-- Two plans that can each be performed under a root can be performed one after the other, when
there are frames for both and their leaves under a root entry agree. -/
theorem Forest.apply_both {w : Worksite F n} (h : w.tables.Forest low roots) (hr : root ∈ roots)
    (hplaced : F.Placed n w.tables.base) (ha : w.tables.Affords root a)
    (hb : w.tables.Affords root b) (hfita : a.phys.toNat + a.span ≤ F.addressLimit)
    (hfitb : b.phys.toNat + b.span ≤ F.addressLimit)
    (hroom : w.tables.lacking root a + w.tables.lacking root b ≤ w.tables.available)
    (hagree : ∀ i j, i < a.steps → j < b.steps → a.slot F i = b.slot F j →
      a.tier = b.tier ∧ (a.place F i = b.place F j → a.leafRaw F i = b.leafRaw F j)) :
    ∃ w' w'', Builder.apply root a w = .ok () w' ∧ Builder.apply root b w' = .ok () w'' ∧
      MapsBoth w.tables w''.tables roots root a b := by
  have hreg := h.regular
  obtain ⟨es, hrun, hperforms, hforest, hused⟩ := Builder.apply_ok h hr (fun _ => hplaced) ha.sound
    (fun j hj => (ha.admits j hj).hasPlace hreg) ha.room
  -- The first plan leaves the places of the second, and frames for the tables that it still lacks.
  have hplace : ∀ j, j < b.steps → (w.tables.after es).HasPlace root b j := fun j hj =>
    hperforms.hasPlace_of_agree hreg hforest hr ha.sound (Nat.le_refl _) hr
      (fun _ i _ hi hslot => (hagree i j hi hj hslot).imp_right fun hraw hsame =>
        congrArg _ (hraw hsame))
      ((hb.admits j hj).hasPlace hreg)
  have hlacking := lacking_le (hperforms.accepted.extends hreg) root b
  have hroom' : (w.tables.after es).lacking root b ≤ (w.tables.after es).available := by
    unfold available at hroom ⊢
    omega
  rw [← Worksite.tables_perform] at hforest hplace hroom'
  obtain ⟨es', hrun', hperforms', hforest', -⟩ := Builder.apply_ok (w := w.perform es) hforest hr
    (fun _ => by rw [Worksite.tables_perform, base_after]; exact hplaced) hb.sound hplace hroom'
  refine ⟨_, _, hrun, hrun', ?_⟩
  rw [Worksite.tables_perform] at hperforms' hforest' hforest ⊢
  rw [Worksite.tables_perform]
  have hfirst := fun {r} hr' va => hperforms.translate h hforest ha.sound hfita hr (r := r) hr' va
  have hsecond := fun {r} hr' va =>
    hperforms'.translate hforest hforest' hb.sound hfitb hr (r := r) hr' va
  exact {
    left := by
      intro va hva
      have hmapped := (hfirst hr va).trans (if_pos ⟨rfl, hva⟩)
      rw [hsecond hr va]
      split
      · -- Where the ranges meet, the second plan maps to where the first one does.
        rename_i hin
        have himage : a.image F va = some _ := if_pos hva
        rw [himage] at hmapped ⊢
        rw [hperforms'.image_of_translate hforest hforest' hb.sound hfitb hr hin.2 hmapped]
      · exact hmapped
    right := fun va hva => (hsecond hr va).trans (if_pos ⟨rfl, hva⟩)
    unchanged := fun r hr' va hout =>
      ((hsecond hr' va).trans (if_neg fun hin => (hout hin.1).2 hin.2)).trans
        ((hfirst hr' va).trans (if_neg fun hin => (hout hin.1).1 hin.2)) }

/-- Two plans that are made for one root of raised storage are performed one after the other, when
the test finds no conflict between them, and there are frames for the tables that they count. -/
theorem Raised.apply_both {w : Worksite F n} (h : w.tables.Raised roots)
    (hplaced : F.Placed n w.tables.base) (hr : root ∈ roots) (ha : w.tables.Plans root a)
    (hb : w.tables.Plans root b) (hfita : a.phys.toNat + a.span ≤ F.addressLimit)
    (hfitb : b.phys.toNat + b.span ≤ F.addressLimit)
    (hdistinct : ∀ x y, a.Covers x → b.Covers y → x % F.coverage = y % F.coverage → x = y)
    (hclear : a.conflicts b = .ok false) (hroom : a.newTables + b.newTables ≤ w.tables.available) :
    ∃ w' w'', Builder.apply root a w = .ok () w' ∧ Builder.apply root b w' = .ok () w'' ∧
      MapsBoth w.tables w''.tables roots root a b := by
  obtain ⟨all, hall, hforest⟩ := h.stands hplaced
  obtain ⟨hafforda, hcounta⟩ := ha.affords hforest (hall root hr)
  obtain ⟨haffordb, hcountb⟩ := hb.affords hforest (hall root hr)
  rw [hcounta, hcountb] at hroom
  rw [Plan.conflicts_eq_ok hafforda.sound haffordb.sound] at hclear
  have hno : ¬a.Conflicts b := of_decide_eq_false (Except.ok.inj hclear)
  obtain ⟨w', w'', hrun, hrun', hmaps⟩ := hforest.apply_both (hall root hr) hplaced hafforda haffordb
    hfita hfitb hroom fun i j hi hj => Plan.slot_agree hafforda.sound haffordb.sound hdistinct
      (fun hconflict => hno hconflict.symm) hi hj
  exact ⟨w', w'', hrun, hrun', hmaps.left, hmaps.right, fun r hr' => hmaps.unchanged r (hall r hr')⟩

/-- Two plans that are made for one root commute. When the addresses of their ranges are equal if
they are congruent modulo the coverage, the test finds no conflict between them, the entries hold
their physical addresses, and there are frames for the tables that they count, both can be performed
in either order. The translations are the same afterwards: each range is mapped as its plan says,
with the addresses congruent to its own, and every other address, and every address under another
root, is translated as before. -/
theorem Raised.plans_commute {w : Worksite F n} (h : w.tables.Raised roots)
    (hplaced : F.Placed n w.tables.base) (hr : root ∈ roots) (ha : w.tables.Plans root a)
    (hb : w.tables.Plans root b) (hfita : a.phys.toNat + a.span ≤ F.addressLimit)
    (hfitb : b.phys.toNat + b.span ≤ F.addressLimit)
    (hdistinct : ∀ x y, a.Covers x → b.Covers y → x % F.coverage = y % F.coverage → x = y)
    (hclear : a.conflicts b = .ok false) (hroom : a.newTables + b.newTables ≤ w.tables.available) :
    ∃ wa wab wb wba, Builder.apply root a w = .ok () wa ∧ Builder.apply root b wa = .ok () wab ∧
      Builder.apply root b w = .ok () wb ∧ Builder.apply root a wb = .ok () wba ∧
      (∀ r ∈ roots, ∀ va, wab.tables.translate r va = wba.tables.translate r va) ∧
      (∀ d < a.span, ∀ va : VirtAddr, va.toNat % F.coverage = (a.virt.toNat + d) % F.coverage →
        wab.tables.translate root va = .ok (some (a.phys.offset (UInt64.ofNat d)))) ∧
      (∀ d < b.span, ∀ va : VirtAddr, va.toNat % F.coverage = (b.virt.toNat + d) % F.coverage →
        wab.tables.translate root va = .ok (some (b.phys.offset (UInt64.ofNat d)))) ∧
      ∀ r ∈ roots, ∀ va : VirtAddr, (r = root → ∀ x, a.Covers x ∨ b.Covers x →
        x % F.coverage ≠ va.toNat % F.coverage) →
        wab.tables.translate r va = w.tables.translate r va := by
  have hcomm : b.conflicts a = .ok false := by
    rw [← hclear, Plan.conflicts_eq_ok ha.sound hb.sound, Plan.conflicts_eq_ok hb.sound ha.sound]
    exact congrArg Except.ok (decide_eq_decide.mpr ⟨Plan.Conflicts.symm, Plan.Conflicts.symm⟩)
  obtain ⟨wa, wab, hrun, hrun', hmaps⟩ :=
    h.apply_both hplaced hr ha hb hfita hfitb hdistinct hclear hroom
  obtain ⟨wb, wba, hrunb, hrunb', hmaps'⟩ := h.apply_both hplaced hr hb ha hfitb hfita
    (fun x y hx hy hmod => (hdistinct y x hy hx hmod.symm).symm) hcomm
    (by omega)
  refine ⟨wa, wab, wb, wba, hrun, hrun', hrunb, hrunb',
    fun r hr' => hmaps.translate_eq hmaps'.symm hr', fun d hd va hva => ?_, fun d hd va hva => ?_,
    fun r hr' va hout => hmaps.unchanged r hr' va fun he => ⟨fun hin => ?_, fun hin => ?_⟩⟩
  · obtain ⟨hin, himage⟩ := ha.sound.image_of_mod hd hva
    rw [hmaps.left va hin, himage]
  · obtain ⟨hin, himage⟩ := hb.sound.image_of_mod hd hva
    rw [hmaps.right va hin, himage]
  · obtain ⟨x, hmod, hx⟩ := ha.sound.reach_lt_iff.mp hin
    exact hout he x (.inl hx) hmod
  · obtain ⟨x, hmod, hx⟩ := hb.sound.reach_lt_iff.mp hin
    exact hout he x (.inr hx) hmod

/-- Two ranges that share a block and a root entry: the second plan finds the child that the first
one has added, and the frame for the other child is left over. -/
theorem Raised.plans_commute_sv39 :
    let w : Worksite .sv39 3 := { tables := (Tables.empty .sv39 3 ⟨0x80400000⟩).takeFrame }
    let a : Plan := ⟨.intermediate, ⟨0x200000⟩, ⟨0x80200000⟩, 2, 0x200000, 1, .normal⟩
    let b : Plan := ⟨.intermediate, ⟨0x400000⟩, ⟨0x80400000⟩, 2, 0x200000, 1, .normal⟩
    w.tables.Raised [0] ∧ Format.Placed .sv39 3 w.tables.base ∧ w.tables.Plans 0 a ∧
      w.tables.Plans 0 b ∧ a.overlaps b = .ok true ∧ a.conflicts b = .ok false ∧
      ∃ wa wab wb wba, Builder.apply 0 a w = .ok () wa ∧ Builder.apply 0 b wa = .ok () wab ∧
        Builder.apply 0 b w = .ok () wb ∧ Builder.apply 0 a wb = .ok () wba ∧
        ∀ va, wab.tables.translate 0 va = wba.tables.translate 0 va := by
  intro w a b
  have hraised : w.tables.Raised [0] := .addRoot (.empty _) (by decide)
  have hplaced : Format.Placed .sv39 3 w.tables.base := ⟨by decide, by decide⟩
  have ha : w.tables.Plans 0 a :=
    .inl ⟨⟨0x200000⟩, ⟨0x80200000⟩, 0x400000, .normal, by decide +kernel⟩
  have hb : w.tables.Plans 0 b :=
    .inl ⟨⟨0x400000⟩, ⟨0x80400000⟩, 0x400000, .normal, by decide +kernel⟩
  have hclear : a.conflicts b = .ok false := by decide
  -- Both ranges lie below the coverage.
  have hdistinct : ∀ x y, a.Covers x → b.Covers y →
      x % Format.coverage .sv39 = y % Format.coverage .sv39 → x = y := by
    rintro x y ⟨-, hx⟩ ⟨-, hy⟩ hmod
    rwa [Nat.mod_eq_of_lt (Nat.lt_trans hx (by decide)),
      Nat.mod_eq_of_lt (Nat.lt_trans hy (by decide))] at hmod
  obtain ⟨wa, wab, wb, wba, hrun, hrun', hrunb, hrunb', hsame, -⟩ :=
    Raised.plans_commute hraised hplaced List.mem_cons_self ha hb (by decide) (by decide) hdistinct
      hclear (by decide)
  exact ⟨hraised, hplaced, ha, hb, by decide, hclear, wa, wab, wb, wba, hrun, hrun', hrunb, hrunb',
    hsame 0 List.mem_cons_self⟩

/-- The address one coverage above the first range is outside of both ranges, and was not mapped,
but is mapped once the plans have been performed. -/
theorem not_unchanged_outside_ranges :
    let w : Worksite .sv39 1 := { tables := (Tables.empty .sv39 1 ⟨0x80400000⟩).takeFrame }
    let a : Plan := ⟨.top, ⟨0⟩, ⟨0x80000000⟩, 1, 0x40000000, 0, .normal⟩
    let b : Plan := ⟨.top, ⟨0x40000000⟩, ⟨0xc0000000⟩, 1, 0x40000000, 0, .normal⟩
    w.tables.Raised [0] ∧ Format.Placed .sv39 1 w.tables.base ∧ w.tables.Plans 0 a ∧
      w.tables.Plans 0 b ∧ a.phys.toNat + a.span ≤ Format.addressLimit .sv39 ∧
      b.phys.toNat + b.span ≤ Format.addressLimit .sv39 ∧
      (∀ x y, a.Covers x ∨ b.Covers x → a.Covers y ∨ b.Covers y →
        x % Format.coverage .sv39 = y % Format.coverage .sv39 → x = y) ∧
      a.conflicts b = .ok false ∧ a.newTables + b.newTables ≤ w.tables.available ∧
      ¬a.Covers 0x8000000000 ∧ ¬b.Covers 0x8000000000 ∧
      w.tables.translate 0 ⟨0x8000000000⟩ = .ok none ∧
      ∃ wa wab, Builder.apply 0 a w = .ok () wa ∧ Builder.apply 0 b wa = .ok () wab ∧
        wab.tables.translate 0 ⟨0x8000000000⟩ = .ok (some ⟨0x80000000⟩) := by
  intro w a b
  have hraised : w.tables.Raised [0] := .addRoot (.empty _) (by decide)
  have hplaced : Format.Placed .sv39 1 w.tables.base := ⟨by decide, by decide⟩
  have ha : w.tables.Plans 0 a :=
    .inl ⟨⟨0⟩, ⟨0x80000000⟩, 0x40000000, .normal, by decide +kernel⟩
  have hb : w.tables.Plans 0 b :=
    .inl ⟨⟨0x40000000⟩, ⟨0xc0000000⟩, 0x40000000, .normal, by decide +kernel⟩
  have hclear : a.conflicts b = .ok false := by decide
  -- Both ranges lie below the coverage.
  have hbelow : ∀ x, a.Covers x ∨ b.Covers x → x < Format.coverage .sv39 := by
    rintro x (⟨-, hx⟩ | ⟨-, hx⟩)
    · exact Nat.lt_trans hx (by decide)
    · exact Nat.lt_trans hx (by decide)
  have hdistinct : ∀ x y, a.Covers x ∨ b.Covers x → a.Covers y ∨ b.Covers y →
      x % Format.coverage .sv39 = y % Format.coverage .sv39 → x = y := by
    intro x y hx hy hmod
    rwa [Nat.mod_eq_of_lt (hbelow x hx), Nat.mod_eq_of_lt (hbelow y hy)] at hmod
  obtain ⟨wa, wab, hrun, hrun', hmaps⟩ := Raised.apply_both hraised hplaced List.mem_cons_self ha hb
    (by decide) (by decide) (fun x y hx hy => hdistinct x y (.inl hx) (.inr hy)) hclear (by decide)
  refine ⟨hraised, hplaced, ha, hb, by decide, by decide, hdistinct, hclear, by decide,
    fun hin => absurd hin.2 (by decide), fun hin => absurd hin.2 (by decide), by decide +kernel,
    wa, wab, hrun, hrun', ?_⟩
  rw [hmaps.left _ (by decide)]
  decide

end Both

end Tables

end BootLoader.Paging
