import BootLoader.Bringup.Driver

/-!
# The driver registry

A registry lists the drivers that a loader has, each with the texts that it handles; the first entry
that handles a text has it. `Registry.resolve` goes through the candidates in order and chooses the
driver of the first one that is accepted. The candidates after that are of use only to the chosen
driver, which still hears of those with the same text, so that it learns about every core.
-/

namespace BootLoader.Bringup

open Journal (Record)

/-- A driver in a registry. -/
structure Registration (σ : Type) where
  /-- the texts that the driver handles -/
  handles : String → Bool
  /-- the driver -/
  driver : Driver σ

/-- The drivers that a loader has, in the order in which they are tried. -/
abbrev Registry (σ : Type) := List (Registration σ)

/-- One call to probe a candidate. -/
structure Probe (σ : Type) where
  /-- the driver that was asked -/
  driver : Driver σ
  /-- what it was asked about -/
  candidate : Candidate
  /-- what it said -/
  result : Except DriverError Unit

/-- How far a choice among drivers has come. -/
structure Resolution (σ : Type) where
  /-- the state of the drivers -/
  state : σ
  /-- the driver that was chosen, and the text that it was chosen for -/
  chosen : Option (Driver σ × String) := none
  /-- the candidates that were probed, oldest first -/
  probes : List (Probe σ) := []
  /-- what was said -/
  log : List Record := []

namespace Resolution

variable {σ : Type}

/-- A record of the choice. -/
def record (level : Journal.Level) (text : String) : Record :=
  { level, target := "lode_pal::smp", text }

/-- Asks a driver about a candidate; a refusal is reported. -/
def probe (r : Resolution σ) (d : Driver σ) (c : Candidate) : Resolution σ :=
  let answer := d.probe c r.state
  let said :=
    match answer.result with
    | .ok () => []
    | .error e => [record .warn s!"smp: {d.name} rejected {c.compatible}: {e.message}"]
  { r with
    state := answer.state
    probes := r.probes ++ [⟨d, c, answer.result⟩]
    log := r.log ++ answer.log ++ said }

/-- Chooses a driver for the text that it accepted. -/
def choose (r : Resolution σ) (d : Driver σ) (compatible : String) : Resolution σ :=
  { r with
    chosen := some (d, compatible)
    log := r.log ++ [record .debug s!"smp: {d.name} matched {compatible}"] }

end Resolution

namespace Registry

variable {σ : Type}

/-- The registry of a machine that no driver is made for. -/
def host : Registry σ := []

/-- The driver that has a text. -/
def lookup (registry : Registry σ) (compatible : String) : Option (Driver σ) :=
  (registry.find? (·.handles compatible)).map (·.driver)

/-- Whether some driver has a text. -/
def handles (registry : Registry σ) (compatible : String) : Bool :=
  (registry.lookup compatible).isSome

/-- The choice after one more candidate. -/
def visit (registry : Registry σ) (r : Resolution σ) (c : Candidate) : Resolution σ :=
  match r.chosen with
  | some (d, compatible) => if c.compatible == compatible then r.probe d c else r
  | none =>
    match registry.lookup c.compatible with
    | none => r
    | some d =>
      match (d.probe c r.state).result with
      | .ok () => (r.probe d c).choose d c.compatible
      | .error _ => r.probe d c

/-- The choice after all of the candidates, from the given state of the drivers. -/
def resolve (registry : Registry σ) (state : σ) (cs : List Candidate) : Resolution σ :=
  cs.foldl registry.visit { state }

end Registry

end BootLoader.Bringup
