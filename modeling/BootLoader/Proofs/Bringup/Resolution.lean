import BootLoader.Bringup.Registry
import Mathlib.Data.List.Basic
import Mathlib.Data.List.Induction

/-!
# Choosing a driver

A candidate is offered to the driver that has its text. Drivers remember what they were asked, so
the answer to an offer depends on the offers before it: `probesOf` says what offers amount to when
they are made one after the other. The first candidate that its driver accepts decides the choice
(`Registry.First`). Before it, every candidate has been offered and refused; after it, the chosen
driver hears of the candidates with the same text, and whatever it answers, the choice stays
(`Registry.resolves_resolve`).
-/

namespace BootLoader.Bringup

variable {σ : Type}

/-! ## Offers -/

/-- A driver, and what it is asked about. -/
abbrev Offer (σ : Type) := Driver σ × Candidate

/-- The offer that a probe was. -/
def Probe.offer (p : Probe σ) : Offer σ := (p.driver, p.candidate)

/-- Whether the driver that was asked has refused. -/
def Probe.IsRefused (p : Probe σ) : Prop := ∃ e, p.result = .error e

/-- The state of the drivers after some offers. -/
def stateAfter (s : σ) (offers : List (Offer σ)) : σ :=
  offers.foldl (fun s o => (o.1.probe o.2 s).state) s

/-- The probes that offers amount to when they are made one after the other. -/
def probesOf (s : σ) : List (Offer σ) → List (Probe σ)
  | [] => []
  | o :: offers =>
    ⟨o.1, o.2, (o.1.probe o.2 s).result⟩ :: probesOf (o.1.probe o.2 s).state offers

/-- Later offers start with the state that the earlier ones leave. -/
theorem stateAfter_append (s : σ) (os os' : List (Offer σ)) :
    stateAfter s (os ++ os') = stateAfter (stateAfter s os) os' :=
  List.foldl_append

/-- Later offers are answered in the state that the earlier ones leave. -/
theorem probesOf_append (s : σ) (os os' : List (Offer σ)) :
    probesOf s (os ++ os') = probesOf s os ++ probesOf (stateAfter s os) os' := by
  induction os generalizing s with
  | nil => rfl
  | cons o os ih =>
    rw [List.cons_append, probesOf, probesOf, ih, List.cons_append]
    rfl

/-- There is one probe for each offer, in the order of the offers. -/
theorem map_offer_probesOf (s : σ) (os : List (Offer σ)) :
    (probesOf s os).map Probe.offer = os := by
  induction os generalizing s with
  | nil => rfl
  | cons o os ih =>
    rw [probesOf, List.map_cons, ih]
    rfl

namespace Resolution

variable {r : Resolution σ} {s : σ} {os : List (Offer σ)}

/-- Whether the probes so far are those of the given offers, made from the state `s`. -/
structure Asked (r : Resolution σ) (s : σ) (os : List (Offer σ)) : Prop where
  /-- these probes were made -/
  probes_eq : r.probes = probesOf s os
  /-- the drivers are as they leave them -/
  state_eq : r.state = stateAfter s os

/-- A probe is one more offer. -/
theorem Asked.probe (h : r.Asked s os) (d : Driver σ) (c : Candidate) :
    (r.probe d c).Asked s (os ++ [(d, c)]) where
  probes_eq := by
    rw [probesOf_append, ← h.probes_eq, ← h.state_eq]
    rfl
  state_eq := by
    rw [stateAfter_append, ← h.state_eq]
    rfl

end Resolution

namespace Registry

variable {registry : Registry σ} {s : σ} {cs before : List Candidate} {c : Candidate}
  {d : Driver σ}

/-- A text belongs to the first entry that handles it. -/
theorem lookup_eq_some_iff {text : String} :
    registry.lookup text = some d ↔ ∃ others entry rest, registry = others ++ entry :: rest ∧
      (∀ e ∈ others, e.handles text = false) ∧ entry.handles text = true ∧ entry.driver = d := by
  unfold lookup
  simp only [Option.map_eq_some_iff, List.find?_eq_some_iff_append, Bool.not_eq_true']
  constructor
  · rintro ⟨entry, ⟨hhandles, others, rest, hsplit, hothers⟩, hd⟩
    exact ⟨others, entry, rest, hsplit, hothers, hhandles, hd⟩
  · rintro ⟨others, entry, rest, hsplit, hothers, hhandles, hd⟩
    exact ⟨entry, ⟨hhandles, others, rest, hsplit, hothers⟩, hd⟩

/-! ## Who accepts what -/

/-- The offers of candidates to the drivers that have their texts. -/
def offers (registry : Registry σ) (cs : List Candidate) : List (Offer σ) :=
  cs.filterMap fun c => (registry.lookup c.compatible).map (·, c)

/-- Whether `c` is accepted by its driver `d` after the candidates `before` have been offered to
theirs. -/
structure Accepts (registry : Registry σ) (s : σ) (before : List Candidate) (c : Candidate)
    (d : Driver σ) : Prop where
  /-- the driver has the text of the candidate -/
  lookup : registry.lookup c.compatible = some d
  /-- it accepts the candidate -/
  result : (d.probe c (stateAfter s (registry.offers before))).result = .ok ()

/-- Whether none of the candidates is accepted by its driver. -/
def Refuses (registry : Registry σ) (s : σ) (cs : List Candidate) : Prop :=
  ∀ before c after, cs = before ++ c :: after → ∀ d, ¬registry.Accepts s before c d

/-- Whether `c` is the first candidate that is accepted, where `before` come before it. -/
structure First (registry : Registry σ) (s : σ) (before : List Candidate) (c : Candidate)
    (d : Driver σ) : Prop where
  /-- none of those before it is accepted -/
  refuses : registry.Refuses s before
  /-- its driver `d` accepts it -/
  accepts : registry.Accepts s before c d

/-- One more candidate is offered after the others. -/
theorem offers_append (registry : Registry σ) (cs cs' : List Candidate) :
    registry.offers (cs ++ cs') = registry.offers cs ++ registry.offers cs' :=
  List.filterMap_append

/-- A candidate is offered to the driver that has its text. -/
theorem offers_singleton (registry : Registry σ) (c : Candidate) :
    registry.offers [c] = ((registry.lookup c.compatible).map (·, c)).toList := by
  unfold offers
  cases hlookup : registry.lookup c.compatible <;> simp [hlookup]

/-- Candidates are offered at most once, and in their order. -/
theorem offers_sublist (registry : Registry σ) (cs : List Candidate) :
    ((registry.offers cs).map Prod.snd).Sublist cs := by
  induction cs with
  | nil => exact List.Sublist.slnil
  | cons c cs ih =>
    unfold offers at ih ⊢
    cases hlookup : registry.lookup c.compatible with
    | none => simpa [hlookup] using ih.cons c
    | some d => simpa [hlookup] using ih

/-- None of some candidates is accepted when none of the earlier ones is, nor the last. -/
theorem refuses_concat : registry.Refuses s (cs ++ [c]) ↔
    registry.Refuses s cs ∧ ∀ d, ¬registry.Accepts s cs c d := by
  constructor
  · intro h
    refine ⟨fun before c' after hsplit => h before c' (after ++ [c]) ?_, h cs c [] rfl⟩
    rw [hsplit, List.append_assoc, List.cons_append]
  · rintro ⟨hcs, hc⟩ before c' after hsplit
    rcases List.eq_nil_or_concat' after with rfl | ⟨after, last, rfl⟩
    · obtain ⟨rfl, rfl⟩ := List.append_inj' hsplit rfl |>.imp_right List.singleton_inj.mp
      exact hc
    · rw [← List.cons_append, ← List.append_assoc] at hsplit
      exact hcs before c' after (List.append_inj' hsplit rfl).1

/-- Among candidates, either none is accepted or there is a first one that is. -/
theorem refuses_or_exists_first (registry : Registry σ) (s : σ) (cs : List Candidate) :
    registry.Refuses s cs ∨
      ∃ before c after d, cs = before ++ c :: after ∧ registry.First s before c d := by
  induction cs using List.reverseRecOn with
  | nil => exact .inl fun before c after hsplit => by simp at hsplit
  | append_singleton cs c ih =>
    rcases ih with hrefuses | ⟨before, c', after, d, rfl, hfirst⟩
    · -- only the last candidate can be the first that is accepted
      by_cases haccepts : ∃ d, registry.Accepts s cs c d
      · obtain ⟨d, haccepts⟩ := haccepts
        exact .inr ⟨cs, c, [], d, rfl, hrefuses, haccepts⟩
      · exact .inl (refuses_concat.mpr ⟨hrefuses, not_exists.mp haccepts⟩)
    · exact .inr ⟨before, c', after ++ [c], d, by simp, hfirst⟩

/-- Candidates of which none is accepted are refused, each by its own driver. -/
theorem Refuses.probes (h : registry.Refuses s cs) :
    ∀ p ∈ probesOf s (registry.offers cs), p.IsRefused := by
  induction cs using List.reverseRecOn with
  | nil => simp [offers, probesOf]
  | append_singleton cs c ih =>
    obtain ⟨hcs, hc⟩ := refuses_concat.mp h
    rw [offers_append, offers_singleton, probesOf_append]
    intro p hp
    rcases List.mem_append.mp hp with hp | hp
    · exact ih hcs p hp
    · -- the last candidate is probed after the others, if there is a driver for it
      cases hlookup : registry.lookup c.compatible with
      | none => simp [hlookup, probesOf] at hp
      | some d =>
        obtain rfl : p = ⟨d, c, (d.probe c (stateAfter s (registry.offers cs))).result⟩ := by
          simpa [hlookup, probesOf] using hp
        cases hresult : (d.probe c (stateAfter s (registry.offers cs))).result with
        | ok => exact absurd ⟨hlookup, hresult⟩ (hc d)
        | error e => exact ⟨e, rfl⟩

/-! ## The course of a choice -/

/-- A choice goes on with one more candidate. -/
theorem resolve_concat (registry : Registry σ) (s : σ) (cs : List Candidate) (c : Candidate) :
    registry.resolve s (cs ++ [c]) = registry.visit (registry.resolve s cs) c := by
  unfold resolve
  rw [List.foldl_append]
  rfl

/-- As long as no candidate is accepted, the choice is open and every candidate was offered. -/
theorem Refuses.resolve (h : registry.Refuses s cs) :
    (registry.resolve s cs).chosen = none ∧
      (registry.resolve s cs).Asked s (registry.offers cs) := by
  induction cs using List.reverseRecOn with
  | nil => exact ⟨rfl, rfl, rfl⟩
  | append_singleton cs c ih =>
    obtain ⟨hcs, hc⟩ := refuses_concat.mp h
    obtain ⟨hopen, hasked⟩ := ih hcs
    -- an open choice offers the last candidate to its driver, which answers as `Accepts` asks
    rw [resolve_concat, offers_append, offers_singleton]
    generalize registry.resolve s cs = r at hopen hasked ⊢
    unfold visit
    rw [hopen]
    cases hlookup : registry.lookup c.compatible with
    | none => simpa using ⟨hopen, hasked⟩
    | some d =>
      cases hresult : (d.probe c r.state).result with
      | ok => exact absurd ⟨hlookup, hasked.state_eq ▸ hresult⟩ (hc d)
      | error e =>
        simp only [hresult]
        exact ⟨hopen, hasked.probe d c⟩

/-- Once a driver is chosen it stays, and it hears of the candidates with the text that it was
chosen for. -/
theorem foldl_visit_chosen {r : Resolution σ} {text : String} {os : List (Offer σ)}
    (hchosen : r.chosen = some (d, text)) (hasked : r.Asked s os) (later : List Candidate) :
    (later.foldl registry.visit r).chosen = some (d, text) ∧
      (later.foldl registry.visit r).Asked s
        (os ++ (later.filter (·.compatible == text)).map (d, ·)) := by
  induction later generalizing r os with
  | nil => simpa using ⟨hchosen, hasked⟩
  | cons c later ih =>
    rw [List.foldl_cons]
    cases hsame : c.compatible == text with
    | true =>
      have hvisit : registry.visit r c = r.probe d c := by
        unfold visit
        simp [hchosen, hsame]
      rw [hvisit]
      simpa [hsame] using ih (r := r.probe d c) hchosen (hasked.probe d c)
    | false =>
      have hvisit : registry.visit r c = r := by
        unfold visit
        simp [hchosen, hsame]
      rw [hvisit]
      simpa [hsame] using ih hchosen hasked

/-- The first candidate that is accepted has its driver chosen, whatever comes after it. -/
theorem First.resolve (h : registry.First s before c d) (after : List Candidate) :
    (registry.resolve s (before ++ c :: after)).chosen = some (d, c.compatible) ∧
      (registry.resolve s (before ++ c :: after)).Asked s (registry.offers before ++
        (d, c) :: (after.filter (·.compatible == c.compatible)).map (d, ·)) := by
  obtain ⟨hopen, hasked⟩ := h.refuses.resolve
  have hvisit : registry.visit (registry.resolve s before) c =
      ((registry.resolve s before).probe d c).choose d c.compatible := by
    have hresult := h.accepts.result
    rw [← hasked.state_eq] at hresult
    unfold visit
    simp [hopen, h.accepts.lookup, hresult]
  have hnext : (registry.visit (registry.resolve s before) c).Asked s
      (registry.offers before ++ [(d, c)]) := by
    -- to choose a driver asks nobody
    rw [hvisit]
    exact ⟨(hasked.probe d c).probes_eq, (hasked.probe d c).state_eq⟩
  have hsplit : registry.resolve s (before ++ c :: after) =
      after.foldl registry.visit (registry.visit (registry.resolve s before) c) := by
    rw [List.append_cons, ← resolve_concat]
    exact List.foldl_append
  rw [hsplit, List.append_cons _ (d, c)]
  exact foldl_visit_chosen (by rw [hvisit]; rfl) hnext after

/-- A choice makes some offers, each for one of the candidates, in their order. -/
theorem exists_asked (registry : Registry σ) (s : σ) (cs : List Candidate) :
    ∃ os, (registry.resolve s cs).Asked s os ∧ (os.map Prod.snd).Sublist cs := by
  rcases refuses_or_exists_first registry s cs with h | ⟨before, c, after, d, rfl, h⟩
  · exact ⟨_, h.resolve.2, offers_sublist registry cs⟩
  · refine ⟨_, (h.resolve after).2, ?_⟩
    rw [List.map_append, List.map_cons, List.map_map]
    refine (offers_sublist registry before).append (List.Sublist.cons_cons c ?_)
    simp [Function.comp_def]

/-! ## What a choice amounts to -/

/-- What a choice among drivers amounts to: `r` is its result for the candidates `cs`, from the
state `s` of the drivers. -/
structure Resolves (registry : Registry σ) (s : σ) (cs : List Candidate) (r : Resolution σ) :
    Prop where
  /-- the driver that has a text is that of the first entry which handles it -/
  lookup : ∀ text d, registry.lookup text = some d ↔
    ∃ others entry rest, registry = others ++ entry :: rest ∧
      (∀ e ∈ others, e.handles text = false) ∧ entry.handles text = true ∧ entry.driver = d
  /-- a candidate is probed at most once, and in the order of the candidates -/
  inOrder : (r.probes.map (·.candidate)).Sublist cs
  /-- each driver has answered in the state that the probes before have left -/
  answers : r.probes = probesOf s (r.probes.map Probe.offer)
  /-- no driver is chosen exactly when no candidate is accepted by its driver -/
  none_iff : r.chosen = none ↔ registry.Refuses s cs
  /-- a driver is chosen exactly when it accepts its candidate as the first -/
  chosen_iff : ∀ d text, r.chosen = some (d, text) ↔ ∃ before c after,
    cs = before ++ c :: after ∧ registry.First s before c d ∧ c.compatible = text
  /-- when none is chosen, every candidate with a driver was offered to it and refused -/
  refused : r.chosen = none →
    r.probes.map Probe.offer = registry.offers cs ∧ ∀ p ∈ r.probes, p.IsRefused
  /-- the candidates before the first that is accepted were offered to their drivers and refused;
  of those after it the ones with the same text were offered, all to the chosen driver -/
  probed : ∀ before c after d, cs = before ++ c :: after → registry.First s before c d →
    ∃ tried told, r.probes = tried ++ ⟨d, c, .ok ()⟩ :: told ∧
      tried.map Probe.offer = registry.offers before ∧ (∀ p ∈ tried, p.IsRefused) ∧
      told.map Probe.offer = (after.filter (·.compatible == c.compatible)).map (d, ·)
  /-- what comes after the first that is accepted, and what is answered then, changes no choice -/
  settled : ∀ before c after d, cs = before ++ c :: after → registry.First s before c d →
    ∀ later, (registry.resolve s (before ++ c :: later)).chosen = r.chosen

/-- Whatever the drivers remember and answer: the first candidate that is accepted by its driver
decides, all candidates before it have been offered and refused, and those after it reach nobody
but the chosen driver. -/
theorem resolves_resolve (registry : Registry σ) (s : σ) (cs : List Candidate) :
    registry.Resolves s cs (registry.resolve s cs) := by
  have hfirst : ∀ before c after d, cs = before ++ c :: after → registry.First s before c d →
      (registry.resolve s cs).chosen = some (d, c.compatible) ∧
        (registry.resolve s cs).Asked s (registry.offers before ++
          (d, c) :: (after.filter (·.compatible == c.compatible)).map (d, ·)) := by
    rintro before c after d rfl h
    exact h.resolve after
  have hnone : (registry.resolve s cs).chosen = none ↔ registry.Refuses s cs := by
    constructor
    · intro hopen
      rcases refuses_or_exists_first registry s cs with h | ⟨before, c, after, d, hsplit, h⟩
      · exact h
      · simp [(hfirst before c after d hsplit h).1] at hopen
    · exact fun h => h.resolve.1
  obtain ⟨os, hasked, hos⟩ := exists_asked registry s cs
  exact
    { lookup := fun _ _ => lookup_eq_some_iff
      inOrder := by
        rwa [← map_offer_probesOf s os, ← hasked.probes_eq, List.map_map] at hos
      answers := by
        rw [hasked.probes_eq, map_offer_probesOf]
      none_iff := hnone
      chosen_iff := fun d text => by
        constructor
        · intro hchosen
          rcases refuses_or_exists_first registry s cs with h | ⟨before, c, after, d', hsplit, h⟩
          · simp [h.resolve.1] at hchosen
          · obtain ⟨rfl, rfl⟩ : d' = d ∧ c.compatible = text := by
              simpa [(hfirst before c after d' hsplit h).1] using hchosen
            exact ⟨before, c, after, hsplit, h, rfl⟩
        · rintro ⟨before, c, after, hsplit, h, rfl⟩
          exact (hfirst before c after d hsplit h).1
      refused := fun hopen => by
        have h := hnone.mp hopen
        rw [h.resolve.2.probes_eq, map_offer_probesOf]
        exact ⟨rfl, h.probes⟩
      probed := fun before c after d hsplit h => by
        have hprobes := (hfirst before c after d hsplit h).2.probes_eq
        rw [probesOf_append, probesOf, h.accepts.result] at hprobes
        exact ⟨_, _, hprobes, map_offer_probesOf _ _, h.refuses.probes, map_offer_probesOf _ _⟩
      settled := fun before c after d hsplit h later => by
        rw [(h.resolve later).1, (hfirst before c after d hsplit h).1] }

/-- A driver of every text, which refuses its first probe and accepts the others, is chosen for the
second text, and hears no more of the first. -/
example :
    let late : Driver Nat :=
      { name := "late"
        probe := fun _ n => if n = 0 then .refuse (-1) (n + 1) else .accept (n + 1)
        start := fun _ _ _ n => .accept n }
    let r := resolve [{ handles := fun _ => true, driver := late }] 0
      [{ compatible := "a" }, { compatible := "b" }, { compatible := "a" }, { compatible := "b" }]
    r.chosen.map (·.2) = some "b" ∧ r.probes.map (·.candidate.compatible) = ["a", "b", "b"] := by
  decide

end Registry

end BootLoader.Bringup
