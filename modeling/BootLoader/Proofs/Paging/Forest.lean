import BootLoader.Proofs.Paging.Edits
import BootLoader.Proofs.Paging.Leaves

/-!
# Roots and children form a forest

`Tables.Forest t low roots` says how the frames of `t` from number `low` on are linked: some of them
are roots, every other one in use is a child of exactly one entry of exactly one root, and children
hold leaves only. A walk from a root therefore reads at most one child, and ends at a leaf or at an
empty entry (`Forest.walkEnds`).

Two kinds of change keep a forest: leaves that fill empty entries (`Forest.addLeaves`), and a child
that is filled before an empty root entry is made to point at it (`Forest.addChild`).
-/

namespace BootLoader.Paging

variable {F : Format} {n : Nat}

/-- Whether a raw entry, read at `level`, is a leaf. -/
def Format.IsLeaf (F : Format) (raw : UInt64) (level : Nat) : Prop :=
  ∃ base attrs, F.decode raw level = .leaf base attrs

/-- A leaf is not the empty entry. -/
theorem Format.IsLeaf.ne_zero {raw : UInt64} {level : Nat} (h : F.IsLeaf raw level) : raw ≠ 0 := by
  rintro rfl
  obtain ⟨base, attrs, hd⟩ := h
  rw [Format.decode_zero] at hd
  cases hd

namespace Tables

/-- The frame at which an entry of the table in `root` points. -/
def childAt (t : Tables F n) (root : FrameId) (slot : Nat) : Option FrameId :=
  match F.decode (t.entryAt root slot) 0 with
  | .next child => t.frameAt child
  | _ => none

/-- The frame that holds the leaves of a tier under one entry of the table in `root`. -/
def tableAt (t : Tables F n) (root : FrameId) : Tier → Nat → Option FrameId
  | .top, _ => some root
  | .intermediate, slot => t.childAt root slot

/-- The leaves of the top tier are in the root itself. -/
theorem tableAt_top (t : Tables F n) (root : FrameId) (slot : Nat) :
    t.tableAt root .top slot = some root := rfl

/-- A frame that an address names is in use. -/
theorem frameAt_lt {t : Tables F n} {pa : PhysAddr} {frame : FrameId}
    (h : t.frameAt pa = some frame) : frame < t.used := by
  unfold frameAt at h
  split at h
  · cases h
  · simp only [Option.ite_none_right_eq_some, Option.some.injEq] at h
    exact h.2 ▸ h.1

/-- An entry that points at a frame of the storage is a pointer. -/
theorem childAt_eq_some {t : Tables F n} {root : FrameId} {slot : Nat} {c : FrameId} :
    t.childAt root slot = some c ↔
      ∃ child, F.decode (t.entryAt root slot) 0 = .next child ∧ t.frameAt child = some c := by
  unfold childAt
  constructor
  · intro h
    split at h
    · rename_i child hd
      exact ⟨child, hd, h⟩
    · cases h
  · rintro ⟨child, hd, hf⟩
    rw [hd]
    exact hf

/-- A frame in use whose address the format can hold is read back from a pointer at it. -/
theorem childAt_of_pointer {t : Tables F n} (hbase : t.base.toNat % pageSize = 0) {root : FrameId}
    {slot : Nat} {c : FrameId} (hu : c < t.used)
    (hlimit : t.base.toNat + pageSize * c < F.addressLimit)
    (hentry : t.entryAt root slot = F.width.stored (F.pointerWord (t.frameAddress c))) :
    t.childAt root slot = some c := by
  have hlt := Nat.lt_of_lt_of_le hlimit F.addressLimit_le
  have hdecode := Format.decode_pointerWord (show 0 + 1 < F.levels from F.two_le_levels)
    (frameAddress_aligned hbase c)
  rw [toNat_frameAddress hlt, Nat.mod_eq_of_lt hlimit, ← toNat_frameAddress hlt,
    Address.ofNat_toNat] at hdecode
  exact childAt_eq_some.mpr ⟨_, hentry ▸ hdecode, frameAt_frameAddress hbase hlt hu⟩

/-- A child is in use. -/
theorem childAt_lt {t : Tables F n} {root : FrameId} {slot : Nat} {c : FrameId}
    (h : t.childAt root slot = some c) : c < t.used := by
  obtain ⟨child, -, hf⟩ := childAt_eq_some.mp h
  exact frameAt_lt hf

/-- An entry that points at a child is not empty. -/
theorem childAt_ne_zero {t : Tables F n} {root : FrameId} {slot : Nat} {c : FrameId}
    (h : t.childAt root slot = some c) : t.entryAt root slot ≠ 0 := by
  intro hz
  obtain ⟨child, hd, -⟩ := childAt_eq_some.mp h
  rw [hz, Format.decode_zero] at hd
  cases hd

/-- A leaf points at no child. -/
theorem not_isLeaf_of_childAt {t : Tables F n} {root : FrameId} {slot : Nat} {c : FrameId}
    (h : t.childAt root slot = some c) : ¬ F.IsLeaf (t.entryAt root slot) 0 := by
  rintro ⟨base, attrs, hleaf⟩
  obtain ⟨child, hd, -⟩ := childAt_eq_some.mp h
  rw [hleaf] at hd
  cases hd

/-- What an entry points at depends on the entry alone, while frames stay in use. -/
theorem childAt_congr {t t' : Tables F n} (hbase : t'.base = t.base) (hu : t.used ≤ t'.used)
    {root : FrameId} {slot : Nat} {c : FrameId}
    (hentry : t'.entryAt root slot = t.entryAt root slot) (hc : t.childAt root slot = some c) :
    t'.childAt root slot = some c := by
  obtain ⟨child, hd, hf⟩ := childAt_eq_some.mp hc
  exact childAt_eq_some.mpr ⟨child, by rw [hentry, hd], frameAt_mono hbase hu hf⟩

/-- A child stays a child. -/
theorem Extends.childAt {t t' : Tables F n} (h : t'.Extends t) {root : FrameId} {slot : Nat}
    {c : FrameId} (hc : t.childAt root slot = some c) : t'.childAt root slot = some c :=
  childAt_congr h.base_eq h.used_le (h.entry_eq root slot (childAt_ne_zero hc)) hc

/-- A table that holds the leaves of a tier stays so. -/
theorem Extends.tableAt {t t' : Tables F n} (h : t'.Extends t) {root : FrameId} {tier : Tier}
    {slot : Nat} {f : FrameId} (hf : t.tableAt root tier slot = some f) :
    t'.tableAt root tier slot = some f := by
  cases tier with
  | top => exact hf
  | intermediate => exact h.childAt hf

/-! ## Walks of two levels -/

/-- The two ways in which the walk for `va` from the table in `root` ends without leaving the
tiers, and the address that it finds. -/
inductive WalkEnds (t : Tables F n) (root : FrameId) (va : VirtAddr) : Option PhysAddr → Prop where
  /-- the entry that `va` selects in the table of a tier is empty -/
  | empty (tier : Tier) (frame : FrameId) (htable : t.tableAt root tier (F.index va 0) = some frame)
    (hentry : t.entryAt frame (F.index va tier.level) = 0) : WalkEnds t root va none
  /-- the entry that `va` selects in the table of a tier is a leaf -/
  | leaf (tier : Tier) (frame : FrameId) (base : PhysAddr) (attrs : UInt64)
    (htable : t.tableAt root tier (F.index va 0) = some frame)
    (hentry : F.decode (t.entryAt frame (F.index va tier.level)) tier.level = .leaf base attrs) :
    WalkEnds t root va (some (base.offset (UInt64.ofNat (F.blockOffset va tier.level))))

/-- One level of a walk in a frame of the storage. -/
theorem walk_succ (t : Tables F n) (va : VirtAddr) (depth : Nat) {frame : FrameId} (level : Nat)
    (hf : frame < n) :
    t.walk va (depth + 1) frame level =
      match F.decode (t.entryAt frame (F.index va level)) level with
      | .invalid => .ok none
      | .leaf base _ => .ok (some (base.offset (UInt64.ofNat (F.blockOffset va level))))
      | .next child =>
        match t.frameAt child with
        | none => .ok none
        | some frame => t.walk va depth frame (level + 1) := by
  rw [walk, read_eq_ok t hf (F.index_lt_entries va level)]
  rfl

/-- A walk finds what it ends at. -/
theorem WalkEnds.translate_eq {t : Tables F n} (hu : t.used ≤ n) {root : FrameId} (hr : root < n)
    {va : VirtAddr} {found : Option PhysAddr} (h : t.WalkEnds root va found) :
    t.translate root va = .ok found := by
  -- Two steps of the walk are enough, and every format has as many levels.
  obtain ⟨depth, hdepth⟩ : ∃ depth, F.levels = depth + 1 + 1 :=
    ⟨F.levels - 2, by have := F.two_le_levels; omega⟩
  unfold translate
  rw [hdepth, walk_succ t va _ 0 hr]
  cases h with
  | empty tier frame htable hentry =>
    cases tier with
    | top =>
      obtain rfl : root = frame := Option.some.inj htable
      have hzero : t.entryAt root (F.index va 0) = 0 := hentry
      rw [hzero, Format.decode_zero]
    | intermediate =>
      obtain ⟨child, hd, hf⟩ := childAt_eq_some.mp htable
      have hzero : t.entryAt frame (F.index va 1) = 0 := hentry
      have hlt : frame < n := Nat.lt_of_lt_of_le (frameAt_lt hf) hu
      simp only [hd, hf]
      rw [walk_succ t va _ _ hlt, hzero, Format.decode_zero]
  | leaf tier frame base attrs htable hentry =>
    cases tier with
    | top =>
      obtain rfl : root = frame := Option.some.inj htable
      have hleaf : F.decode (t.entryAt root (F.index va 0)) 0 = .leaf base attrs := hentry
      rw [hleaf]
      rfl
    | intermediate =>
      obtain ⟨child, hd, hf⟩ := childAt_eq_some.mp htable
      have hleaf : F.decode (t.entryAt frame (F.index va 1)) 1 = .leaf base attrs := hentry
      have hlt : frame < n := Nat.lt_of_lt_of_le (frameAt_lt hf) hu
      simp only [hd, hf]
      rw [walk_succ t va _ _ hlt, hleaf]
      rfl

/-- A leaf at which a walk ends stays where it is. -/
theorem WalkEnds.extends {t t' : Tables F n} (hext : t'.Extends t) {root : FrameId}
    {va : VirtAddr} {pa : PhysAddr} (h : t.WalkEnds root va (some pa)) :
    t'.WalkEnds root va (some pa) := by
  cases h with
  | leaf tier frame base attrs htable hentry =>
    refine .leaf tier frame base attrs (hext.tableAt htable) ?_
    rw [hext.entry_eq _ _ (Format.IsLeaf.ne_zero ⟨base, attrs, hentry⟩), hentry]

/-- A walk ends where it ended when the entries are as they were. -/
theorem WalkEnds.of_entryAt_eq {t t' : Tables F n} (hext : t'.Extends t)
    (hentry : ∀ f i, t'.entryAt f i = t.entryAt f i) {root : FrameId} {va : VirtAddr}
    {found : Option PhysAddr} (h : t.WalkEnds root va found) : t'.WalkEnds root va found := by
  cases h with
  | empty tier frame htable hzero =>
    exact .empty tier frame (hext.tableAt htable) ((hentry _ _).trans hzero)
  | leaf tier frame base attrs htable hleaf =>
    exact .leaf tier frame base attrs (hext.tableAt htable) (by rw [hentry, hleaf])

/-! ## The forest -/

/-- How the frames from number `low` on are linked: those in `roots` are root tables, and every
other frame in use is the child of one entry of one root. -/
structure Forest (t : Tables F n) (low : FrameId) (roots : List FrameId) : Prop where
  /-- the storage is as its width stores it, and clear where it is not in use -/
  regular : t.Regular
  /-- roots are in use -/
  root_mem : ∀ r ∈ roots, low ≤ r ∧ r < t.used
  /-- an entry of a root is empty, a leaf, or a pointer at a frame that is no root -/
  root_entry : ∀ r ∈ roots, ∀ i, t.entryAt r i = 0 ∨ F.IsLeaf (t.entryAt r i) 0 ∨
    ∃ c, t.childAt r i = some c ∧ low ≤ c ∧ c ∉ roots
  /-- a frame in use that is no root has an entry that points at it -/
  child_owned : ∀ c, low ≤ c → c < t.used → c ∉ roots → ∃ r ∈ roots, ∃ i, t.childAt r i = some c
  /-- a frame has no two entries that point at it -/
  child_unique : ∀ r ∈ roots, ∀ r' ∈ roots, ∀ i i' c, t.childAt r i = some c →
    t.childAt r' i' = some c → r = r' ∧ i = i'
  /-- an entry of a child is empty or a leaf -/
  child_entry : ∀ c, low ≤ c → c < t.used → c ∉ roots → ∀ i,
    t.entryAt c i = 0 ∨ F.IsLeaf (t.entryAt c i) 1
  /-- a child holds a leaf -/
  child_leaf : ∀ c, low ≤ c → c < t.used → c ∉ roots → ∃ i, F.IsLeaf (t.entryAt c i) 1

namespace Forest

variable {t t' : Tables F n} {low : FrameId} {roots : List FrameId}

/-- A root is a frame of the storage. -/
theorem root_lt (h : t.Forest low roots) {r : FrameId} (hr : r ∈ roots) : r < n :=
  Nat.lt_of_lt_of_le (h.root_mem r hr).2 h.regular.used_le

/-- A child of a root is a frame in use from `low` on, and no root. -/
theorem child_mem (h : t.Forest low roots) {r : FrameId} (hr : r ∈ roots) {i : Nat} {c : FrameId}
    (hc : t.childAt r i = some c) : low ≤ c ∧ c < t.used ∧ c ∉ roots := by
  rcases h.root_entry r hr i with hz | hl | ⟨c', hc', hlow, hroot⟩
  · exact absurd hz (childAt_ne_zero hc)
  · exact absurd hl (not_isLeaf_of_childAt hc)
  · obtain rfl : c' = c := Option.some.inj (hc'.symm.trans hc)
    exact ⟨hlow, childAt_lt hc, hroot⟩

/-- A frame is the table of one tier, under one root, and for one entry if it is a child. -/
theorem tableAt_inj (h : t.Forest low roots) {r r' : FrameId} (hr : r ∈ roots) (hr' : r' ∈ roots)
    {tier tier' : Tier} {i i' : Nat} {f : FrameId} (hf : t.tableAt r tier i = some f)
    (hf' : t.tableAt r' tier' i' = some f) :
    r = r' ∧ tier = tier' ∧ (tier = .intermediate → i = i') := by
  cases tier with
  | top =>
    obtain rfl : r = f := Option.some.inj hf
    cases tier' with
    | top => exact ⟨(Option.some.inj hf').symm, rfl, by intro h; cases h⟩
    | intermediate => exact absurd hr (h.child_mem hr' hf').2.2
  | intermediate =>
    cases tier' with
    | top =>
      obtain rfl : r' = f := Option.some.inj hf'
      exact absurd hr' (h.child_mem hr hf).2.2
    | intermediate =>
      obtain ⟨hroot, hentry⟩ := h.child_unique r hr r' hr' i i' f hf hf'
      exact ⟨hroot, rfl, fun _ => hentry⟩

/-- The walk from a root ends within the tiers. -/
theorem walkEnds (h : t.Forest low roots) {root : FrameId} (hr : root ∈ roots) (va : VirtAddr) :
    ∃ found, t.WalkEnds root va found := by
  rcases h.root_entry root hr (F.index va 0) with hz | ⟨base, attrs, hl⟩ | ⟨c, hc, hlow, hroot⟩
  · exact ⟨none, .empty .top root rfl hz⟩
  · exact ⟨_, .leaf .top root base attrs rfl hl⟩
  · rcases h.child_entry c hlow (childAt_lt hc) hroot (F.index va 1) with hz | ⟨base, attrs, hl⟩
    · exact ⟨none, .empty .intermediate c hc hz⟩
    · exact ⟨_, .leaf .intermediate c base attrs hc hl⟩

/-- The storage translates an address under a root to where its walk ends. -/
theorem translate_eq (h : t.Forest low roots) {root : FrameId} (hr : root ∈ roots) {va : VirtAddr}
    {found : Option PhysAddr} (hw : t.WalkEnds root va found) :
    t.translate root va = .ok found :=
  hw.translate_eq h.regular.used_le (h.root_lt hr)

/-- A root entry that has not changed points where it pointed. -/
theorem childAt_of_entry_eq (h : t.Forest low roots) (hext : t'.Extends t) {r : FrameId}
    (hr : r ∈ roots) {i : Nat} {c : FrameId} (he : t'.entryAt r i = t.entryAt r i)
    (hc : t'.childAt r i = some c) : t.childAt r i = some c := by
  have hne := childAt_ne_zero hc
  have hleaf := not_isLeaf_of_childAt hc
  rw [he] at hne hleaf
  rcases h.root_entry r hr i with hz | hl | ⟨c', hc', -, -⟩
  · exact absurd hz hne
  · exact absurd hl hleaf
  · rw [hext.childAt hc'] at hc
    exact Option.some.inj hc ▸ hc'

/-- A root entry that has not changed is what it was. -/
theorem root_entry_of_eq (h : t.Forest low roots) (hext : t'.Extends t) {r : FrameId}
    (hr : r ∈ roots) {i : Nat} (he : t'.entryAt r i = t.entryAt r i) :
    t'.entryAt r i = 0 ∨ F.IsLeaf (t'.entryAt r i) 0 ∨
      ∃ c, t'.childAt r i = some c ∧ low ≤ c ∧ c < t.used ∧ c ∉ roots := by
  rw [he]
  rcases h.root_entry r hr i with hz | hl | ⟨c, hc, hlow, hroot⟩
  · exact .inl hz
  · exact .inr (.inl hl)
  · exact .inr (.inr ⟨c, hext.childAt hc, hlow, childAt_lt hc, hroot⟩)

/-- A child has one entry that points at it. -/
theorem existsUnique_parent (h : t.Forest low roots) {c : FrameId} (hlow : low ≤ c)
    (hc : c < t.used) (hroot : c ∉ roots) :
    ∃! e : FrameId × Nat, e.1 ∈ roots ∧ t.childAt e.1 e.2 = some c := by
  obtain ⟨r, hr, i, hi⟩ := h.child_owned c hlow hc hroot
  refine ⟨(r, i), ⟨hr, hi⟩, ?_⟩
  rintro ⟨r', i'⟩ ⟨hr', hi'⟩
  obtain ⟨rfl, rfl⟩ := h.child_unique r' hr' r hr i' i c hi' hi
  rfl

/-- An entry that is not empty is valid at the level of its table. -/
theorem decode_ne_invalid (h : t.Forest low roots) {f : FrameId} (hlow : low ≤ f) {i : Nat}
    (hne : t.entryAt f i ≠ 0) :
    F.decode (t.entryAt f i) (if f ∈ roots then 0 else 1) ≠ .invalid := by
  have hu : f < t.used := Nat.lt_of_not_le fun hfree => hne (h.regular.free_zero f hfree i)
  split
  · rename_i hr
    rcases h.root_entry f hr i with hz | ⟨base, attrs, hl⟩ | ⟨c, hc, -⟩
    · exact absurd hz hne
    · rw [hl]
      exact fun he => by cases he
    · obtain ⟨child, hd, -⟩ := childAt_eq_some.mp hc
      rw [hd]
      exact fun he => by cases he
  · rename_i hr
    rcases h.child_entry f hlow hu hr i with hz | ⟨base, attrs, hl⟩
    · exact absurd hz hne
    · rw [hl]
      exact fun he => by cases he

/-- The frames that are still to be handed out form a forest. -/
theorem ofRegular (h : t.Regular) : t.Forest t.used [] where
  regular := h
  root_mem := fun _ hr => absurd hr List.not_mem_nil
  root_entry := fun _ hr => absurd hr List.not_mem_nil
  child_owned := fun _ hlow hc => absurd hc (Nat.not_lt_of_le hlow)
  child_unique := fun _ hr => absurd hr List.not_mem_nil
  child_entry := fun _ hlow hc => absurd hc (Nat.not_lt_of_le hlow)
  child_leaf := fun _ hlow hc => absurd hc (Nat.not_lt_of_le hlow)

/-- A frame that is handed out as a root keeps a forest: it is empty. -/
theorem addRoot (h : t.Forest low roots) (hlow : low ≤ t.used) (hu : t.used < n) :
    t.takeFrame.Forest low (roots ++ [t.used]) := by
  have hext : t.takeFrame.Extends t := (Accepts.step (e := .allocate) h.regular hu).2
  have hfresh : t.used ∉ roots := fun hr => Nat.lt_irrefl _ (h.root_mem _ hr).2
  have hkeep := h.regular.entryAt_takeFrame
  have hmem : ∀ {r}, r ∈ roots ++ [t.used] → r ∈ roots ∨ r = t.used := by
    intro r hr
    rcases List.mem_append.mp hr with hr | hr
    · exact .inl hr
    · exact .inr (List.mem_singleton.mp hr)
  -- The new root points at nothing, and the other roots point where they pointed.
  have hback : ∀ r ∈ roots ++ [t.used], ∀ i c, t.takeFrame.childAt r i = some c →
      r ∈ roots ∧ t.childAt r i = some c := by
    intro r hr i c hc
    rcases hmem hr with hr | rfl
    · exact ⟨hr, h.childAt_of_entry_eq hext hr (hkeep r i) hc⟩
    · refine absurd ?_ (childAt_ne_zero hc)
      rw [hkeep, h.regular.free_zero _ (Nat.le_refl _)]
  have hold : ∀ c, c < t.takeFrame.used → c ∉ roots ++ [t.used] → c < t.used ∧ c ∉ roots := by
    intro c hc hcr
    have hne : c ≠ t.used := fun he => hcr (he ▸ List.mem_append_right _ List.mem_cons_self)
    exact ⟨Nat.lt_of_le_of_ne (Nat.le_of_lt_succ hc) hne,
      fun hr => hcr (List.mem_append_left _ hr)⟩
  exact {
    regular := h.regular.takeFrame hu
    root_mem := by
      intro r hr
      rcases hmem hr with hr | rfl
      · exact ⟨(h.root_mem r hr).1, Nat.lt_succ_of_lt (h.root_mem r hr).2⟩
      · exact ⟨hlow, Nat.lt_succ_self _⟩
    root_entry := by
      intro r hr i
      rcases hmem hr with hr | rfl
      · rcases h.root_entry_of_eq hext hr (hkeep r i) with hz | hl | ⟨c, hc, hlow, hcu, hcr⟩
        · exact .inl hz
        · exact .inr (.inl hl)
        · -- A child was in use before, so it is not the new root.
          refine .inr (.inr ⟨c, hc, hlow, fun hm => ?_⟩)
          rcases hmem hm with hr' | rfl
          · exact hcr hr'
          · exact Nat.lt_irrefl _ hcu
      · rw [hkeep]
        exact .inl (h.regular.free_zero _ (Nat.le_refl _) i)
    child_owned := by
      intro c hc0 hc hcr
      obtain ⟨hlt, hnot⟩ := hold c hc hcr
      obtain ⟨r, hr, i, hi⟩ := h.child_owned c hc0 hlt hnot
      exact ⟨r, List.mem_append_left _ hr, i, hext.childAt hi⟩
    child_unique := by
      intro r hr r' hr' i i' c hc hc'
      obtain ⟨hr, hc⟩ := hback r hr i c hc
      obtain ⟨hr', hc'⟩ := hback r' hr' i' c hc'
      exact h.child_unique r hr r' hr' i i' c hc hc'
    child_entry := by
      intro c hc0 hc hcr i
      obtain ⟨hlt, hnot⟩ := hold c hc hcr
      rw [hkeep]
      exact h.child_entry c hc0 hlt hnot i
    child_leaf := by
      intro c hc0 hc hcr
      obtain ⟨hlt, hnot⟩ := hold c hc hcr
      obtain ⟨i, hl⟩ := h.child_leaf c hc0 hlt hnot
      exact ⟨i, by rwa [hkeep]⟩ }

/-- Leaves that fill empty entries keep a forest. -/
theorem addLeaves (h : t.Forest low roots) (hreg : t'.Regular) (hext : t'.Extends t)
    (hused : t'.used = t.used)
    (hnew : ∀ f i, t'.entryAt f i ≠ t.entryAt f i →
      (f ∈ roots ∧ F.IsLeaf (t'.entryAt f i) 0) ∨ (f ∉ roots ∧ F.IsLeaf (t'.entryAt f i) 1)) :
    t'.Forest low roots := by
  -- A root entry that points at a child pointed there before.
  have hback : ∀ r ∈ roots, ∀ i c, t'.childAt r i = some c → t.childAt r i = some c := by
    intro r hr i c hc
    by_cases he : t'.entryAt r i = t.entryAt r i
    · exact h.childAt_of_entry_eq hext hr he hc
    · rcases hnew r i he with ⟨-, hl⟩ | ⟨hroot, -⟩
      · exact absurd hl (not_isLeaf_of_childAt hc)
      · exact absurd hr hroot
  exact {
    regular := hreg
    root_mem := fun r hr => ⟨(h.root_mem r hr).1, hused ▸ (h.root_mem r hr).2⟩
    root_entry := by
      intro r hr i
      by_cases he : t'.entryAt r i = t.entryAt r i
      · rcases h.root_entry_of_eq hext hr he with hz | hl | ⟨c, hc, hlow, -, hroot⟩
        · exact .inl hz
        · exact .inr (.inl hl)
        · exact .inr (.inr ⟨c, hc, hlow, hroot⟩)
      · rcases hnew r i he with ⟨-, hl⟩ | ⟨hroot, -⟩
        · exact .inr (.inl hl)
        · exact absurd hr hroot
    child_owned := by
      intro c hlow hc hroot
      obtain ⟨r, hr, i, hi⟩ := h.child_owned c hlow (hused ▸ hc) hroot
      exact ⟨r, hr, i, hext.childAt hi⟩
    child_unique := fun r hr r' hr' i i' c hc hc' =>
      h.child_unique r hr r' hr' i i' c (hback r hr i c hc) (hback r' hr' i' c hc')
    child_entry := by
      intro c hlow hc hroot i
      by_cases he : t'.entryAt c i = t.entryAt c i
      · rw [he]
        exact h.child_entry c hlow (hused ▸ hc) hroot i
      · rcases hnew c i he with ⟨hr, -⟩ | ⟨-, hl⟩
        · exact absurd hr hroot
        · exact .inr hl
    child_leaf := by
      intro c hlow hc hroot
      obtain ⟨i, hl⟩ := h.child_leaf c hlow (hused ▸ hc) hroot
      exact ⟨i, by rwa [hext.entry_eq c i hl.ne_zero]⟩ }

/-- A new child that holds leaves, and an empty root entry that is made to point at it, keep a
forest. -/
theorem addChild (h : t.Forest low roots) (hlow : low ≤ t.used) (hreg : t'.Regular)
    (hext : t'.Extends t) (hused : t'.used = t.used + 1) {root : FrameId} (hroot : root ∈ roots)
    {slot : Nat} (hempty : t.entryAt root slot = 0) (hchild : t'.childAt root slot = some t.used)
    (hnew : ∀ f i, t'.entryAt f i ≠ t.entryAt f i →
      (f = root ∧ i = slot) ∨ (f = t.used ∧ F.IsLeaf (t'.entryAt f i) 1))
    (hleaf : ∃ i, F.IsLeaf (t'.entryAt t.used i) 1) : t'.Forest low roots := by
  have hfresh : t.used ∉ roots := fun hr => Nat.lt_irrefl _ (h.root_mem _ hr).2
  -- A root entry that points at a child pointed there before, unless it is the new pointer.
  have hback : ∀ r ∈ roots, ∀ i c, t'.childAt r i = some c →
      t.childAt r i = some c ∨ (r = root ∧ i = slot ∧ c = t.used) := by
    intro r hr i c hc
    by_cases he : t'.entryAt r i = t.entryAt r i
    · exact .inl (h.childAt_of_entry_eq hext hr he hc)
    · rcases hnew r i he with ⟨rfl, rfl⟩ | ⟨rfl, -⟩
      · exact .inr ⟨rfl, rfl, Option.some.inj (hc.symm.trans hchild)⟩
      · exact absurd hr hfresh
  -- The new child is the only frame that has come into use.
  have hold : ∀ c, c < t'.used → c ≠ t.used → c < t.used := by
    intro c hc hne
    rw [hused] at hc
    exact Nat.lt_of_le_of_ne (Nat.le_of_lt_succ hc) hne
  exact {
    regular := hreg
    root_mem := fun r hr =>
      ⟨(h.root_mem r hr).1, Nat.lt_of_lt_of_le (h.root_mem r hr).2 hext.used_le⟩
    root_entry := by
      intro r hr i
      by_cases he : t'.entryAt r i = t.entryAt r i
      · rcases h.root_entry_of_eq hext hr he with hz | hl | ⟨c, hc, hlow, -, hroot⟩
        · exact .inl hz
        · exact .inr (.inl hl)
        · exact .inr (.inr ⟨c, hc, hlow, hroot⟩)
      · rcases hnew r i he with ⟨rfl, rfl⟩ | ⟨rfl, -⟩
        · exact .inr (.inr ⟨t.used, hchild, hlow, hfresh⟩)
        · exact absurd hr hfresh
    child_owned := by
      intro c hc0 hc hcr
      by_cases hne : c = t.used
      · exact ⟨root, hroot, slot, hne ▸ hchild⟩
      · obtain ⟨r, hr, i, hi⟩ := h.child_owned c hc0 (hold c hc hne) hcr
        exact ⟨r, hr, i, hext.childAt hi⟩
    child_unique := by
      intro r hr r' hr' i i' c hc hc'
      rcases hback r hr i c hc with hb | ⟨rfl, rfl, rfl⟩
      · rcases hback r' hr' i' c hc' with hb' | ⟨rfl, rfl, rfl⟩
        · exact h.child_unique r hr r' hr' i i' c hb hb'
        · exact absurd (childAt_lt hb) (Nat.lt_irrefl _)
      · rcases hback r' hr' i' _ hc' with hb' | ⟨rfl, rfl, -⟩
        · exact absurd (childAt_lt hb') (Nat.lt_irrefl _)
        · exact ⟨rfl, rfl⟩
    child_entry := by
      intro c hc0 hc hcr i
      by_cases he : t'.entryAt c i = t.entryAt c i
      · by_cases hne : c = t.used
        · subst hne
          rw [he, h.regular.free_zero _ (Nat.le_refl _)]
          exact .inl rfl
        · rw [he]
          exact h.child_entry c hc0 (hold c hc hne) hcr i
      · rcases hnew c i he with ⟨rfl, rfl⟩ | ⟨-, hl⟩
        · exact absurd hroot hcr
        · exact .inr hl
    child_leaf := by
      intro c hc0 hc hcr
      by_cases hne : c = t.used
      · exact hne ▸ hleaf
      · obtain ⟨i, hl⟩ := h.child_leaf c hc0 (hold c hc hne) hcr
        exact ⟨i, by rwa [hext.entry_eq c i hl.ne_zero]⟩ }

end Forest

end Tables

end BootLoader.Paging
