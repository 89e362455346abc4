import BootLoader.Proofs.Paging.Session

/-!
# Sessions refine one mapping for each root

`Session.mapping` is what the answers of a session promise: under a root, an address leads where the
plans that have been performed for that root say. The storage keeps that promise
(`Session.Refines`), and a call that succeeds adds its range to it: it maps the range as the plan
says, agrees there with what was mapped, and changes no other translation (`Session.refines_run`).
-/

namespace BootLoader.Paging

variable {F : Format} {n : Nat}

/-! ## The range of a call -/

/-- Rounding up to a granule stays below a multiple of the granule. -/
theorem div_add_mul_le {a g m : Nat} (hg : 0 < g) (hd : g ∣ m) (h : a ≤ m) :
    (a + (g - 1)) / g * g ≤ m := by
  obtain ⟨k, rfl⟩ := hd
  have hlt : (a + (g - 1)) / g < k + 1 := by
    apply Nat.div_lt_of_lt_mul
    rw [Nat.mul_succ]
    omega
  calc (a + (g - 1)) / g * g ≤ k * g := Nat.mul_le_mul_right g (Nat.le_of_lt_succ hlt)
    _ = g * k := Nat.mul_comm _ _

/-- The range of a plan for a call ends within the address field when the range of the call does:
the end of the field is the end of a leaf. -/
theorem Call.span_le_of_fits {c : Call} {p : Plan} (hasks : c.Asks F p) (hfits : c.Fits F)
    (hp : p.Sound F) : p.phys.toNat + p.span ≤ F.addressLimit := by
  have hlimit : ∀ {phys : PhysAddr} {size : UInt64}, p.phys = phys →
      p.steps = (size.toNat + (p.granule - 1)) / p.granule →
      phys.toNat + size.toNat ≤ F.addressLimit → p.phys.toNat + p.span ≤ F.addressLimit := by
    rintro phys size rfl hsteps hfit
    have hdvd : p.granule ∣ F.addressLimit - p.phys.toNat :=
      Nat.dvd_sub (hp.granule_eq ▸ Format.levelSize_dvd_addressLimit _)
        (Nat.dvd_of_mod_eq_zero hp.phys_aligned)
    have hle := div_add_mul_le hp.granule_pos hdvd (a := size.toNat) (by omega)
    unfold Plan.span
    rw [hsteps]
    omega
  cases c with
  | map virt phys size => exact hlimit hasks.2.1 hasks.2.2 hfits
  | mapMemory virt phys size memory => exact hlimit hasks.2.1 hasks.2.2 hfits
  | mapIdentity start limit =>
    obtain ⟨-, -, hend⟩ := hasks
    have hfits : limit.toNat ≤ F.addressLimit := hfits
    rw [hend, Format.toNat_alignUp_root hfits]
    exact div_add_mul_le (F.levelSize_pos 0) (Format.levelSize_dvd_addressLimit 0) hfits

/-! ## What a call does -/

/-- What a performed plan does to the translations under the given roots: its range is mapped as it
says, where it was mapped before it was mapped alike, and nothing else changes. -/
structure Maps (t t' : Tables F n) (roots : List FrameId) (root : FrameId) (p : Plan) : Prop where
  /-- the virtual range leads to the physical range -/
  mapped : ∀ d, d < p.span → t'.translate root (p.virt.offset (UInt64.ofNat d)) =
    .ok (some (p.phys.offset (UInt64.ofNat d)))
  /-- what was mapped led there already -/
  agrees : ∀ d, d < p.span → ∀ pa, t.translate root (p.virt.offset (UInt64.ofNat d)) =
    .ok (some pa) → pa = p.phys.offset (UInt64.ofNat d)
  /-- other addresses, and addresses under other roots, lead where they led -/
  unchanged : ∀ r ∈ roots, ∀ va : VirtAddr,
    (r = root → ∀ d, d < p.span → va.toNat % F.coverage ≠ (p.virt.toNat + d) % F.coverage) →
    t'.translate r va = t.translate r va

/-- A performed plan maps its range. -/
theorem Tables.Performs.maps {t : Tables F n} {low : FrameId} {roots : List FrameId}
    {root : FrameId} {p : Plan} {es : List Edit} (h : t.Performs root p 0 p.steps es)
    (hf : t.Forest low roots) (hf' : (t.after es).Forest low roots) (hp : p.Sound F)
    (hfit : p.phys.toNat + p.span ≤ F.addressLimit) (hroot : root ∈ roots) :
    Maps t (t.after es) roots root p where
  mapped := by
    intro d hd
    have hin := Nat.lt_of_le_of_lt (Nat.le_of_eq (hp.reach_offset hd)) hd
    rw [h.translate hf hf' hp hfit hroot hroot, if_pos ⟨rfl, hin⟩, hp.image_offset hd]
  agrees := by
    intro d hd pa htranslate
    have hin := Nat.lt_of_le_of_lt (Nat.le_of_eq (hp.reach_offset hd)) hd
    have himage := h.image_of_translate hf hf' hp hfit hroot hin htranslate
    rw [hp.image_offset hd] at himage
    exact (Option.some.inj himage).symm
  unchanged := by
    intro r hr va hout
    rw [h.translate hf hf' hp hfit hroot hr, if_neg]
    -- An address at a distance below the span is in the range.
    rintro ⟨hrr, hva⟩
    exact hout hrr _ hva (Plan.add_reach F p va).symm

namespace Session

/-- The mapping that the answers of a session promise: the image of an address under a plan that has
been performed for the root. -/
def mapping (s : Session F n) (root : FrameId) (va : VirtAddr) : Option PhysAddr :=
  Tables.promised F s.made root va

/-- What every request that fits preserves: the storage translates as the answers promise. -/
structure Refines (s : Session F n) : Prop where
  /-- plans are performed for roots -/
  made_mem : ∀ m ∈ s.made, m.1 ∈ s.roots
  /-- the tables translate as promised -/
  translate_eq : ∀ r ∈ s.roots, ∀ va, s.tables.translate r va = .ok (s.mapping r va)

/-- A root that is added maps nothing, and the other roots map what they mapped. -/
theorem Refines.addRoot {s : Session F n} (h : s.Refines) (hf : s.tables.Forest 0 s.roots)
    (hu : s.tables.used < n) : (s.step .addRoot).Refines := by
  rw [step_addRoot s hu]
  have hforest : s.tables.takeFrame.Forest 0 (s.roots ++ [s.tables.used]) :=
    hf.addRoot (Nat.zero_le _) hu
  have hext := (Tables.Accepts.step (e := .allocate) hf.regular hu).2
  refine ⟨fun m hm => List.mem_append_left _ (h.made_mem m hm), fun r hr va => ?_⟩
  show s.tables.takeFrame.translate r va = .ok (s.mapping r va)
  rcases List.mem_append.mp hr with hold | hnew
  · obtain ⟨found, hw⟩ := hf.walkEnds hold va
    have hw' := hw.of_entryAt_eq hext hf.regular.entryAt_takeFrame
    rw [hforest.translate_eq hr hw', ← hf.translate_eq hold hw, h.translate_eq r hold]
  · -- No plan has been performed for the new root.
    rw [List.mem_singleton] at hnew
    subst hnew
    have hfresh : s.tables.used ∉ s.roots := fun hm => Nat.lt_irrefl _ (hf.root_mem _ hm).2
    have hzero : s.tables.takeFrame.entryAt s.tables.used (F.index va 0) = 0 := by
      rw [hf.regular.entryAt_takeFrame, hf.regular.free_zero _ (Nat.le_refl _)]
    have hnone : s.mapping s.tables.used va = none := by
      refine List.findSome?_eq_none_iff.mpr fun m hm => if_neg fun he => hfresh ?_
      exact he ▸ h.made_mem m hm
    rw [hforest.translate_eq hr (.empty .top _ rfl hzero), hnone]

/-- A call that fits adds the range of its plan to what is promised. -/
theorem Refines.call {s : Session F n} (h : s.Refines) (hf : s.tables.Forest 0 s.roots)
    {root : FrameId} (hroot : root ∈ s.roots) {p : Plan} {es : List Edit} {w : Worksite F n}
    (htables : w.tables = s.tables.after es) (hp : p.Sound F)
    (hfit : p.phys.toNat + p.span ≤ F.addressLimit)
    (hperforms : s.tables.Performs root p 0 p.steps es) (hf' : w.tables.Forest 0 s.roots) :
    Refines { s with site := w, made := s.made ++ [(root, p)] } := by
  rw [htables] at hf'
  refine ⟨?_, fun r hr va => ?_⟩
  · intro m hm
    rcases List.mem_append.mp hm with hm | hm
    · exact h.made_mem m hm
    · rw [List.mem_singleton.mp hm]
      exact hroot
  have hafter := hperforms.translate_promised hf hf' hp hfit hroot hr (h.translate_eq r hr va)
  rw [← htables] at hafter
  exact hafter

/-- A request that fits keeps the promise. -/
theorem Refines.step {base : PhysAddr} (hplaced : F.Placed n base) {s : Session F n}
    (hkept : s.Kept base) (h : s.Refines) {r : Request} (hfits : r.Fits F) :
    (s.step r).Refines := by
  obtain ⟨hbase, hforest⟩ := hkept
  cases r with
  | addRoot =>
    rcases Nat.eq_or_lt_of_le hforest.regular.used_le with hu | hu
    · rw [step_addRoot_full s hu]
      exact h
    · exact h.addRoot hforest hu
  | call root c =>
    unfold Session.step
    by_cases hr : root ∈ s.roots
    · simp only [if_pos hr]
      rcases Call.run_cases hforest hr (hbase.symm ▸ hplaced) c with
        ⟨e, hrun⟩ | ⟨p, es, w', hrun, htables, hp, hasks, hperforms, hforest'⟩
      · simp only [show c.run root s.site = _ from hrun]
        exact h
      · simp only [show c.run root s.site = _ from hrun]
        exact h.call hforest hr htables hp (Call.span_le_of_fits hasks hfits hp) hperforms hforest'
    · simp only [if_neg hr]
      exact h

/-- Requests that fit keep the promise. -/
theorem Refines.steps {base : PhysAddr} (hplaced : F.Placed n base) {s : Session F n}
    (hkept : s.Kept base) (h : s.Refines) {rs : List Request} (hfits : ∀ r ∈ rs, r.Fits F) :
    (s.steps rs).Refines := by
  induction rs generalizing s with
  | nil => exact h
  | cons r rs ih =>
    have hr := hfits r List.mem_cons_self
    exact ih (hkept.step hplaced r) (h.step hplaced hkept hr)
      fun r hr => hfits r (List.mem_cons_of_mem _ hr)

/-- After every run of requests whose ranges fit the address field: a translation depends on the
address modulo the coverage; it is what the plans performed for the root promise; and a further call
is refused and changes nothing, or gives a plan for the range that it asks for and maps that range,
in agreement with what was mapped, and nothing else. -/
theorem refines_run {base : PhysAddr} (hplaced : F.Placed n base) (rs : List Request)
    (hfits : ∀ r ∈ rs, r.Fits F) :
    let s := run F n base rs
    (∀ root va wa, va.toNat % F.coverage = wa.toNat % F.coverage →
      s.tables.translate root va = s.tables.translate root wa) ∧
    (∀ root ∈ s.roots, ∀ va, s.tables.translate root va = .ok (s.mapping root va)) ∧
    ∀ root ∈ s.roots, ∀ c : Call, c.Fits F →
      (∃ e, c.run root s.site = .error (.refused e) s.site) ∨
      ∃ p w, c.run root s.site = .ok p w ∧ c.Asks F p ∧ Maps s.tables w.tables s.roots root p := by
  intro s
  have hkept : s.Kept base := kept_run hplaced rs
  have hempty : (start F n base).Kept base := kept_run hplaced []
  have hstart : (start F n base).Refines :=
    ⟨fun m hm => absurd hm List.not_mem_nil, fun r hr => absurd hr List.not_mem_nil⟩
  have hrefines : s.Refines := hstart.steps hplaced hempty hfits
  refine ⟨fun root va wa h => s.tables.translate_congr root h, hrefines.translate_eq, ?_⟩
  intro root hr c hc
  rcases Call.run_cases hkept.forest hr (hkept.base_eq.symm ▸ hplaced) c with
    ⟨e, hrun⟩ | ⟨p, es, w', hrun, htables, hp, hasks, hperforms, hforest'⟩
  · exact .inl ⟨e, hrun⟩
  · have hfit := Call.span_le_of_fits hasks hc hp
    refine .inr ⟨p, w', hrun, hasks, ?_⟩
    rw [htables] at hforest' ⊢
    exact hperforms.maps hkept.forest hforest' hp hfit hr

/-- One frame and a top leaf of one GiB: the call succeeds, and its promise is kept. -/
theorem refines_run_sv39 :
    let base : PhysAddr := ⟨0x80200000⟩
    let rs : List Request :=
      [.addRoot, .call 0 (.map ⟨0xffffffc000000000⟩ ⟨0x80000000⟩ 0x40000000)]
    let s := run .sv39 1 base rs
    Format.Placed .sv39 1 base ∧ (∀ r ∈ rs, r.Fits .sv39) ∧ s.roots = [0] ∧ s.made.length = 1 ∧
      ∀ va, s.tables.translate 0 va = .ok (s.mapping 0 va) := by
  intro base rs s
  have hplaced : Format.Placed .sv39 1 base := ⟨by decide, by decide⟩
  have hfits : ∀ r ∈ rs, r.Fits .sv39 := by decide
  have hroots : s.roots = [0] := by decide +kernel
  refine ⟨hplaced, hfits, hroots, by decide +kernel, ?_⟩
  exact (refines_run hplaced rs hfits).2.1 0 (hroots ▸ List.mem_cons_self)

end Session

end BootLoader.Paging
