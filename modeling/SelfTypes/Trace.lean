import SelfTypes.Term.Printer

/-!
# Traces

What a run reports about itself while it works. An event says what happened; how severe it is and
how it is worded follow from that. A trace lists the latest event first.
-/

namespace SelfTypes

/-- How much an event matters, the most severe level first. -/
inductive Level where
  | warn
  | info
  | debug
  | trace
  deriving DecidableEq, Inhabited

namespace Level

/-- The position of a level, counted from the most severe one. -/
def rank : Level → Nat
  | warn => 0
  | info => 1
  | debug => 2
  | trace => 3

/-- The word for a level in a log line. -/
def label : Level → String
  | warn => "WARN"
  | info => "INFO"
  | debug => "DEBUG"
  | trace => "TRACE"

end Level

/-- Something worth a line in a log. -/
inductive Event where
  /-- Reduction replaced a global by its body. -/
  | unfolding (name : DefName)
  /-- Two weak head normal forms are about to be compared part by part. -/
  | comparison (a b : Term)
  /-- The type of a term is about to be inferred. -/
  | inference (t : Term)
  /-- A term is about to be checked against a type. -/
  | checking (t : Term)
  /-- A definition is about to be checked. -/
  | definition (name : DefName)
  /-- The dependencies of a definition have been put in order. -/
  | ordering (entry : DefName) (names : List DefName)
  /-- A definition has been checked with that many reduction steps. -/
  | checked (name : DefName) (steps : Nat)
  /-- A definition has been compiled, as one of that many. -/
  | compiled (entry : DefName) (definitions : Nat)
  /-- No settings were found in a place, so the defaults are used. -/
  | defaultSettings (path : String)
  deriving DecidableEq, Inhabited

namespace Event

/-- The level of an event. -/
def level : Event → Level
  | unfolding _ | comparison .. | inference _ | checking _ => .trace
  | definition _ | ordering .. | checked .. => .debug
  | compiled .. => .info
  | defaultSettings _ => .warn

/-- The wording of an event. -/
def text : Event → String
  | unfolding name => s!"[unfold] {name}"
  | comparison a b => s!"[eqv] {a.text} == {b.text}"
  | inference t => s!"[infer] {t.text}"
  | checking t => s!"[check] {t.text}"
  | definition name => s!"[definition] {name}"
  | ordering entry names =>
    let list := ", ".intercalate names
    s!"[order] {entry}: {list}"
  | checked name steps => s!"[check] {name}: {steps} reduction steps"
  | compiled entry definitions => s!"[compile] {entry}: {definitions} definitions"
  | defaultSettings path => "Using default configuration; suppose to find one at `" ++ path ++ "`."

/-- The log line of an event. -/
def line (e : Event) : String :=
  s!"{e.level.label} {e.text}"

/-- Whether the terms in the wording of an event have a text. -/
def isPrintable : Event → Bool
  | comparison a b => a.isPrintable && b.isPrintable
  | inference t | checking t => t.isPrintable
  | _ => true

end Event

/-- Events, the latest first. -/
abbrev Trace := List Event

namespace Trace

/-- The events of a trace down to the given level, in order of time. -/
def upTo (t : Trace) (least : Level) : List Event :=
  t.reverse.filter (·.level.rank ≤ least.rank)

/-- The log lines of a trace down to the given level, in order of time. -/
def lines (t : Trace) (least : Level) : List String :=
  (t.upTo least).map Event.line

/-- The log lines of a trace down to the given level, if all terms in them have a text. -/
def lines? (t : Trace) (least : Level) : Option (List String) :=
  if (t.upTo least).all Event.isPrintable then some (t.lines least) else none

end Trace

end SelfTypes
