/-!
# Log records

What the loader has to say is a record: how serious it is, which part of the loader speaks, and the
text. Records are values; writing them to a console is the business of `BootLoader.Journal.Console`.
-/

namespace BootLoader.Journal

/-- How serious a record is, the most serious first. -/
inductive Level where
  | error
  | warn
  | info
  | debug
  | trace
  deriving DecidableEq, Repr

namespace Level

/-- The five-character name of a level in a line of the log. -/
def tag : Level → String
  | error => "ERROR"
  | warn => " WARN"
  | info => " INFO"
  | debug => "DEBUG"
  | trace => "TRACE"

/-- The place of a level in the order, counted from the most serious. -/
def rank : Level → Nat
  | error => 1
  | warn => 2
  | info => 3
  | debug => 4
  | trace => 5

/-- The least serious level that the boot console shows. -/
def threshold : Level := debug

/-- The name of a level on its own. -/
def name : Level → String
  | error => "ERROR"
  | warn => "WARN"
  | info => "INFO"
  | debug => "DEBUG"
  | trace => "TRACE"

/-- The levels, the most serious first. -/
def all : List Level := [error, warn, info, debug, trace]

/-- The level with a name. -/
def ofName? (s : String) : Option Level := all.find? (·.name == s)

/-- Whether records of this level are shown. -/
def isShown (l : Level) : Bool := l.rank ≤ threshold.rank

end Level

/-- One thing that the loader has to say. -/
structure Record where
  /-- how serious it is -/
  level : Level
  /-- the part of the loader that says it -/
  target : String
  /-- what it says -/
  text : String
  deriving DecidableEq, Repr

namespace Record

/-- The record as one text, before it is cut to the length of a line. -/
def heading (r : Record) : String := s!"[lode] {r.level.tag} {r.target}: {r.text}"

end Record

end BootLoader.Journal
