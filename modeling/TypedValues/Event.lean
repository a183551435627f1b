import TypedValues.Error
import TypedValues.Signals

/-!
Events: what an operation leaves behind besides its result, in order. Most events are log records;
the evaluation of an expression and the call of an observer are events without a record.
-/

namespace TypedValues

inductive Event where
  | violation (path : Path) (v : Violation)
  /-- A field of a document that the struct does not have. -/
  | ignoredField (type : Path) (field : String)
  /-- The expression with this number was evaluated. -/
  | evaluated (number : Nat)
  | notified (observer : Observer)
  | constructed (type : Path)
  | changed (type : Path)
  | inserted (type : Path) (index : Nat)
  | removed (type : Path) (index : Nat)
  | instantiated (type : Path) (count : Nat)
  | registered (type : Path) (kind : Kind)
  | builtins (count : Nat)

namespace Event

inductive Level where
  | error | debug | trace
  deriving DecidableEq

def Level.name : Level → String
  | error => "ERROR"
  | debug => "DEBUG"
  | trace => "TRACE"

/-- The level and text of the log record of an event. -/
def record? : Event → Option (Level × String)
  | violation path v => some (.error, (Error.state path v).message)
  | ignoredField type field => some (.debug, s!"'{type}': ignoring unknown field '{field}'")
  | evaluated _ => none
  | notified _ => none
  | constructed type => some (.trace, s!"constructed '{type}'")
  | changed type => some (.trace, s!"'{type}' changed")
  | inserted type i => some (.trace, s!"'{type}': inserted element {i}")
  | removed type i => some (.trace, s!"'{type}': removed element {i}")
  | instantiated type n =>
    some (.debug, s!"instantiated template '{type}' with {n} argument(s)")
  | registered type kind => some (.debug, s!"registered type '{type}' ({kind.name})")
  | builtins n => some (.debug, s!"registered {n} builtin types")

def line? (e : Event) : Option String :=
  e.record?.map fun (level, text) => level.name ++ " [deflang] " ++ text

end Event

end TypedValues
