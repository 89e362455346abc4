import BootLoader.Paging.Listing
import BootLoader.Proofs.Paging.Raising

/-!
# Traces of table listings

What a listing reads is followed in a trace (`Tables.traceFrom`), of which the listing is a part
(`Tables.listFrom_eq_trace`). Nothing in the tables themselves bounds a listing: it goes down wherever
an entry points at a frame. It ends all the same in all storage that can be reached, whatever frames
have been used as roots, since children are later frames than their tables
(`Tables.Reachable.exists_listing`). From a root of a forest it reads the root and each of its children
once (`Tables.Forest.traceFrom_root`, `Tables.Forest.nodup_rootFrames`).
-/

namespace BootLoader.Paging

variable {F : Format} {n : Nat}

/-! ## Traces -/

/-- What a listing does next. -/
inductive ListingStep where
  /-- it begins with the table in a frame -/
  | table (frame : FrameId)
  /-- it gives a line -/
  | line (e : ListedEntry)

namespace ListingStep

/-- The frame with which a step begins. -/
def frame? : ListingStep → Option FrameId
  | table frame => some frame
  | line _ => none

/-- The line that a step gives. -/
def line? : ListingStep → Option ListedEntry
  | table _ => none
  | line e => some e

end ListingStep

namespace Tables

open ListingStep

/-- The steps of a listing for the entries `indexes` of the table in `frame` at `level`, where
`below` gives the steps for a child table. -/
def traceEntries (t : Tables F n) (frame : FrameId) (level : Nat)
    (below : FrameId → Except Fault (List ListingStep)) :
    (indexes : List Nat) → Except Fault (List ListingStep)
  | [] => .ok []
  | index :: indexes => do
    let raw ← t.read frame index
    let steps ←
      match F.decode raw level with
      | .invalid => .ok []
      | .leaf _ _ => .ok [line ⟨level, index, raw⟩]
      | .next child =>
        match t.frameAt child with
        | none => .ok [line ⟨level, index, raw⟩]
        | some frame => do .ok (line ⟨level, index, raw⟩ :: (← below frame))
    let rest ← traceEntries t frame level below indexes
    .ok (steps ++ rest)

/-- The steps of a listing for the table in `frame` at `level` and at most `depth` tables below one
another. -/
def traceFrom (t : Tables F n) :
    (depth : Nat) → (frame : FrameId) → (level : Nat) → Except Fault (List ListingStep)
  | 0, _, _ => .error .cyclicTables
  | depth + 1, frame, level => do
    let steps ← t.traceEntries frame level (fun child => traceFrom t depth child (level + 1))
      (List.range F.entries)
    .ok (table frame :: steps)

/-- The lines for the entries of one table are those of its trace, when this holds for the tables
below. -/
theorem listEntries_eq_trace (t : Tables F n) (frame : FrameId) (level : Nat)
    {below : FrameId → Except Fault (List ListedEntry)}
    {below' : FrameId → Except Fault (List ListingStep)}
    (hbelow : ∀ child, below child = (below' child).map (·.filterMap line?)) (indexes : List Nat) :
    t.listEntries frame level below indexes =
      (t.traceEntries frame level below' indexes).map (·.filterMap line?) := by
  -- Both go over the entries in the same way, and differ in what they keep of a table below.
  induction indexes with
  | nil => rfl
  | cons index indexes ih =>
    rw [listEntries, traceEntries, ih]
    cases t.read frame index with
    | error fault => rfl
    | ok raw =>
      dsimp only [bind, Except.bind]
      cases F.decode raw level with
      | invalid => cases t.traceEntries frame level below' indexes <;> rfl
      | leaf base attrs => cases t.traceEntries frame level below' indexes <;> rfl
      | next child =>
        dsimp only
        cases t.frameAt child with
        | none => cases t.traceEntries frame level below' indexes <;> rfl
        | some c =>
          dsimp only
          rw [hbelow]
          cases below' c with
          | error fault => rfl
          | ok steps =>
            cases t.traceEntries frame level below' indexes with
            | error fault => rfl
            | ok rest =>
              refine congrArg Except.ok ?_
              dsimp only
              rw [List.filterMap_append, List.filterMap_cons_some (f := line?) rfl]

/-- The lines of a listing are those of its trace. -/
theorem listFrom_eq_trace (t : Tables F n) (depth : Nat) (frame : FrameId) (level : Nat) :
    t.listFrom depth frame level =
      (t.traceFrom depth frame level).map (·.filterMap line?) := by
  induction depth generalizing frame level with
  | zero => rfl
  | succ depth ih =>
    rw [listFrom, traceFrom,
      listEntries_eq_trace t frame level (fun child => ih child (level + 1))]
    cases t.traceEntries frame level (fun child => t.traceFrom depth child (level + 1))
      (List.range F.entries) <;> rfl

/-! ## The lines of one table -/

/-- The line for an entry of the table in `frame`, if the entry is valid. -/
def lineAt (t : Tables F n) (frame : FrameId) (level index : Nat) : Option ListedEntry :=
  if (F.decode (t.entryAt frame index) level).isValid then
    some ⟨level, index, t.entryAt frame index⟩
  else none

/-- One line for each valid entry of the table in `frame`, in the order of the entries. -/
def tableLines (t : Tables F n) (frame : FrameId) (level : Nat) : List ListedEntry :=
  (List.range F.entries).filterMap (t.lineAt frame level)

/-- The frame at which the entry of a line points. -/
def target (t : Tables F n) (e : ListedEntry) : Option FrameId :=
  match F.decode e.raw e.level with
  | .next child => t.frameAt child
  | _ => none

/-- The lines of one table: what they say is what the table holds. -/
theorem mem_tableLines {t : Tables F n} {frame : FrameId} {level : Nat} {e : ListedEntry} :
    e ∈ t.tableLines frame level ↔ e.index < F.entries ∧ e.level = level ∧
      e.raw = t.entryAt frame e.index ∧ (F.decode e.raw level).isValid := by
  unfold tableLines lineAt
  simp only [List.mem_filterMap, List.mem_range, Option.ite_none_right_eq_some, Option.some.injEq]
  constructor
  · rintro ⟨index, hi, hvalid, rfl⟩
    exact ⟨hi, rfl, rfl, hvalid⟩
  · rintro ⟨hi, rfl, hraw, hvalid⟩
    exact ⟨e.index, hi, hraw ▸ hvalid, by rw [← hraw]⟩

/-- The lines of one table are in the order of its entries. -/
theorem pairwise_tableLines (t : Tables F n) (frame : FrameId) (level : Nat) :
    (t.tableLines frame level).Pairwise (·.index < ·.index) := by
  unfold tableLines lineAt
  rw [List.pairwise_filterMap]
  refine List.pairwise_lt_range.imp fun hlt e he e' he' => ?_
  simp only [Option.ite_none_right_eq_some, Option.some.injEq] at he he'
  rw [← he.2, ← he'.2]
  exact hlt

/-- A line of a root points where its entry points. -/
theorem target_eq_childAt {t : Tables F n} {root : FrameId} {e : ListedEntry}
    (he : e ∈ t.tableLines root 0) : t.target e = t.childAt root e.index := by
  obtain ⟨-, hlevel, hraw, -⟩ := mem_tableLines.mp he
  unfold target
  rw [hlevel, hraw]
  rfl

/-- A line of any table that points at a frame is for an entry that points at it in a root. -/
theorem childAt_of_target {t : Tables F n} {frame : FrameId} {level : Nat} {e : ListedEntry}
    (he : e ∈ t.tableLines frame level) {c : FrameId} (hc : t.target e = some c) :
    t.childAt frame e.index = some c := by
  obtain ⟨-, -, hraw, -⟩ := mem_tableLines.mp he
  unfold target at hc
  split at hc
  · rename_i child hd
    exact childAt_eq_some.mpr ⟨child, Format.decode_next_at_root (hraw ▸ hd), hc⟩
  · cases hc

/-- One round of the trace for a table of the storage: a valid entry gives its line, and the steps for
the table at which it points come right after it. -/
theorem traceEntries_cons (t : Tables F n) {frame : FrameId} (hf : frame < n) (level : Nat)
    (below : FrameId → Except Fault (List ListingStep)) {index : Nat} (hi : index < F.entries)
    (indexes : List Nat) :
    t.traceEntries frame level below (index :: indexes) = (do
      let steps ← (t.lineAt frame level index).elim (.ok []) fun e => do
        let deeper ← (t.target e).elim (.ok []) below
        .ok (line e :: deeper)
      let rest ← t.traceEntries frame level below indexes
      .ok (steps ++ rest)) := by
  rw [traceEntries, read_eq_ok t hf hi]
  unfold lineAt target
  dsimp only [bind, Except.bind]
  cases hd : F.decode (t.entryAt frame index) level with
  | invalid => rfl
  | leaf base attrs => simp only [Entry.isValid, if_true, Option.elim_some, hd, Option.elim_none]
  | next child =>
    simp only [Entry.isValid, if_true, Option.elim_some, hd]
    cases t.frameAt child with
    | none => rfl
    | some c =>
      dsimp only [Option.elim_some]
      cases below c <;> rfl

/-- The trace for a table of the storage gives the line of each valid entry, with the steps for the
table at which it points right after it. -/
theorem traceEntries_eq_ok (t : Tables F n) {frame : FrameId} (hf : frame < n) {level : Nat}
    {below : FrameId → Except Fault (List ListingStep)} (steps : FrameId → List ListingStep)
    {indexes : List Nat} (hi : ∀ index ∈ indexes, index < F.entries)
    (hbelow : ∀ e ∈ indexes.filterMap (t.lineAt frame level), ∀ c, t.target e = some c →
      below c = .ok (steps c)) :
    t.traceEntries frame level below indexes =
      .ok ((indexes.filterMap (t.lineAt frame level)).flatMap fun e =>
        line e :: (t.target e).elim [] steps) := by
  induction indexes with
  | nil => rfl
  | cons index indexes ih =>
    obtain ⟨hindex, hi⟩ := List.forall_mem_cons.mp hi
    rw [traceEntries_cons t hf level below hindex]
    cases hline : t.lineAt frame level index with
    | none =>
      rw [List.filterMap_cons_none hline] at hbelow ⊢
      rw [ih hi hbelow]
      rfl
    | some e =>
      -- The steps below this line are asked for here, and those below the others by induction.
      rw [List.filterMap_cons_some hline] at hbelow ⊢
      obtain ⟨hfirst, hbelow⟩ := List.forall_mem_cons.mp hbelow
      have hdeeper : (t.target e).elim (.ok []) below = .ok ((t.target e).elim [] steps) := by
        cases htarget : t.target e with
        | none => rfl
        | some c => exact hfirst c htarget
      rw [ih hi hbelow, Option.elim_some, hdeeper, List.flatMap_cons]
      rfl

/-- The trace for a table of the storage, when the tables below it have traces. -/
theorem traceFrom_eq_ok (t : Tables F n) {frame : FrameId} (hf : frame < n) {level depth : Nat}
    (steps : FrameId → List ListingStep)
    (hbelow : ∀ e ∈ t.tableLines frame level, ∀ c, t.target e = some c →
      t.traceFrom depth c (level + 1) = .ok (steps c)) :
    t.traceFrom (depth + 1) frame level =
      .ok (table frame :: (t.tableLines frame level).flatMap fun e =>
        line e :: (t.target e).elim [] steps) := by
  rw [traceFrom, traceEntries_eq_ok t hf steps (fun i hi => List.mem_range.mp hi) hbelow]
  rfl

/-! ## Listings end -/

/-- The trace for a frame ends within the frames in use after it. -/
theorem Upward.exists_traceFrom {t : Tables F n} (h : t.Upward) (hplaced : F.Placed n t.base)
    (depth : Nat) {frame : FrameId} (hf : frame < n) (hdepth : t.used ≤ frame + depth + 1)
    (level : Nat) : ∃ steps, t.traceFrom (depth + 1) frame level = .ok steps := by
  induction depth generalizing frame level with
  | zero =>
    refine ⟨_, traceFrom_eq_ok t hf (fun _ => []) fun e he c hc => ?_⟩
    -- The frame is the last one in use, and a child would be a later one.
    have hchild := childAt_of_target he hc
    exact absurd (h.lt_of_childAt hplaced hchild)
      (Nat.not_lt_of_le (Nat.le_of_lt_succ (Nat.lt_of_lt_of_le (childAt_lt hchild) hdepth)))
  | succ depth ih =>
    -- The limit that is left is enough for each later frame in use.
    have hbelow : ∀ c, ∃ steps, ∀ e ∈ t.tableLines frame level, t.target e = some c →
        t.traceFrom (depth + 1) c (level + 1) = .ok steps := by
      intro c
      by_cases hlater : frame < c ∧ c < t.used
      · have hle : Nat.succ frame ≤ c := hlater.1
        obtain ⟨steps, hsteps⟩ := ih (Nat.lt_of_lt_of_le hlater.2 h.regular.used_le)
          (Nat.le_trans hdepth (by omega)) (level + 1)
        exact ⟨steps, fun _ _ _ => hsteps⟩
      · refine ⟨[], fun e he hc => absurd ?_ hlater⟩
        have hchild := childAt_of_target he hc
        exact ⟨h.lt_of_childAt hplaced hchild, childAt_lt hchild⟩
    choose steps hsteps using hbelow
    exact ⟨_, traceFrom_eq_ok t hf steps fun e he c hc => hsteps c e he hc⟩

/-- Whatever frames have been used as roots, the listing of a frame ends. -/
theorem Reachable.exists_listing {t : Tables F n} (h : t.Reachable) (hplaced : F.Placed n t.base)
    {frame : FrameId} (hf : frame < n) (level : Nat) : ∃ lines, t.listing frame level = .ok lines := by
  obtain ⟨steps, hsteps⟩ := h.upward.exists_traceFrom hplaced (t.used + F.levels) hf (by omega) level
  unfold listing
  rw [listFrom_eq_trace, hsteps]
  exact ⟨_, rfl⟩

/-! ## The trace of a root -/

/-- The steps for a child table: it is begun with, and its lines are given. -/
def childSteps (t : Tables F n) (c : FrameId) : List ListingStep :=
  table c :: (t.tableLines c 1).map line

/-- The steps for a root: each line is given, with the steps for the child at which it points. -/
def rootSteps (t : Tables F n) (root : FrameId) : List ListingStep :=
  table root :: (t.tableLines root 0).flatMap fun e => line e :: (t.target e).elim [] t.childSteps

/-- The lines for a root, each with the lines of the child at which it points. -/
def rootLines (t : Tables F n) (root : FrameId) : List ListedEntry :=
  (t.tableLines root 0).flatMap fun e => e :: (t.target e).elim [] (t.tableLines · 1)

/-- The frames that the listing of a root begins with: the root, and its children in the order of the
entries that point at them. -/
def rootFrames (t : Tables F n) (root : FrameId) : List FrameId :=
  root :: (t.tableLines root 0).filterMap t.target

/-- The lines of the trace of a root. -/
theorem lines_rootSteps (t : Tables F n) (root : FrameId) :
    (t.rootSteps root).filterMap line? = t.rootLines root := by
  unfold rootSteps rootLines
  rw [List.filterMap_cons_none (f := line?) rfl, List.filterMap_flatMap]
  refine List.flatMap_congr fun e _ => ?_
  rw [List.filterMap_cons_some (f := line?) rfl]
  cases t.target e with
  | none => rfl
  | some c =>
    refine congrArg (e :: ·) ?_
    show (childSteps t c).filterMap line? = t.tableLines c 1
    unfold childSteps
    rw [List.filterMap_cons_none (f := line?) rfl, List.filterMap_map]
    exact List.filterMap_some

/-- The frames of the trace of a root. -/
theorem frames_rootSteps (t : Tables F n) (root : FrameId) :
    (t.rootSteps root).filterMap frame? = t.rootFrames root := by
  unfold rootSteps rootFrames
  rw [List.filterMap_cons_some (f := frame?) rfl, List.filterMap_flatMap,
    List.filterMap_eq_flatMap_toList t.target]
  refine congrArg (root :: ·) (List.flatMap_congr fun e _ => ?_)
  rw [List.filterMap_cons_none (f := frame?) rfl]
  cases t.target e with
  | none => rfl
  | some c =>
    show (childSteps t c).filterMap frame? = [c]
    unfold childSteps
    rw [List.filterMap_cons_some (f := frame?) rfl, List.filterMap_map]
    exact congrArg (c :: ·) (List.filterMap_eq_nil_iff.mpr fun _ _ => rfl)

namespace Forest

variable {t : Tables F n} {low root : FrameId} {roots : List FrameId}

/-- A line of a child points at no table. -/
theorem target_eq_none (h : t.Forest low roots) {c : FrameId} (hlow : low ≤ c) (hu : c < t.used)
    (hroot : c ∉ roots) {e : ListedEntry} (he : e ∈ t.tableLines c 1) : t.target e = none := by
  obtain ⟨-, hlevel, hraw, -⟩ := mem_tableLines.mp he
  unfold target
  rw [hlevel, hraw]
  rcases h.child_entry c hlow hu hroot e.index with hz | ⟨base, attrs, hl⟩
  · rw [hz, Format.decode_zero]
  · rw [hl]

/-- The trace for a child ends within the child. -/
theorem traceFrom_child (h : t.Forest low roots) {c : FrameId} (hlow : low ≤ c) (hu : c < t.used)
    (hroot : c ∉ roots) (depth : Nat) : t.traceFrom (depth + 1) c 1 = .ok (t.childSteps c) := by
  -- No line of a child points further, so nothing is asked of tables below it.
  rw [traceFrom_eq_ok t (Nat.lt_of_lt_of_le hu h.regular.used_le) fun _ => []]
  · unfold childSteps
    rw [List.map_eq_flatMap]
    refine congrArg (Except.ok <| table c :: ·) (List.flatMap_congr fun e he => ?_)
    rw [h.target_eq_none hlow hu hroot he, Option.elim_none]
  · intro e he d hd
    rw [h.target_eq_none hlow hu hroot he] at hd
    cases hd

/-- The trace for a root ends within its children, whatever the limit on its depth. -/
theorem traceFrom_root (h : t.Forest low roots) (hr : root ∈ roots) (depth : Nat) :
    t.traceFrom (depth + 2) root 0 = .ok (t.rootSteps root) := by
  refine traceFrom_eq_ok t (h.root_lt hr) t.childSteps fun e he c hc => ?_
  rw [target_eq_childAt he] at hc
  obtain ⟨hlow, hu, hroot⟩ := h.child_mem hr hc
  exact h.traceFrom_child hlow hu hroot depth

/-- No two entries point at one child, and no entry points at the root. -/
theorem nodup_rootFrames (h : t.Forest low roots) (hr : root ∈ roots) :
    (t.rootFrames root).Nodup := by
  refine List.nodup_cons.mpr ⟨fun hmem => ?_, ?_⟩
  · -- A child is no root.
    obtain ⟨e, he, hc⟩ := List.mem_filterMap.mp hmem
    rw [target_eq_childAt he] at hc
    exact (h.child_mem hr hc).2.2 hr
  · -- Two lines of the root are for two entries, and a child has one entry that points at it.
    rw [List.Nodup, List.pairwise_filterMap]
    refine (t.pairwise_tableLines root 0).imp_of_mem fun {e e'} he he' hlt c hc c' hc' hsame => ?_
    rw [target_eq_childAt he] at hc
    rw [target_eq_childAt he', ← hsame] at hc'
    exact Nat.ne_of_lt hlt (h.child_unique root hr root hr _ _ c hc hc').2

end Forest

end Tables

end BootLoader.Paging
