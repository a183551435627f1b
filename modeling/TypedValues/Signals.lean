/-!
Signals: what values notify through. Each node of a live value has a signal of its own, with the
observers subscribed to it and the signal of the node that contains it. A parent is always older
than its children, so a walk up the parents ends.
-/

namespace TypedValues

abbrev SignalId := Nat

abbrev ObserverId := Nat

structure Observer where
  id : ObserverId
  label : String
  deriving DecidableEq

structure Signal where
  observers : List Observer
  parent : Option SignalId

structure Signals where
  all : Array Signal
  /-- The number of the next subscription. -/
  nextObserver : ObserverId

namespace Signals

def empty : Signals := ⟨#[], 1⟩

def fresh (s : Signals) (parent : Option SignalId) : SignalId × Signals :=
  (s.all.size, { s with all := s.all.push ⟨[], parent⟩ })

def observers (s : Signals) (id : SignalId) : List Observer :=
  match s.all[id]? with
  | some signal => signal.observers
  | none => []

def parent? (s : Signals) (id : SignalId) : Option SignalId := s.all[id]?.bind (·.parent)

def subscribe (s : Signals) (id : SignalId) (label : String) : ObserverId × Signals :=
  let observer := ⟨s.nextObserver, label⟩
  let add (signal : Signal) := { signal with observers := signal.observers ++ [observer] }
  (s.nextObserver, ⟨s.all.modify id add, s.nextObserver + 1⟩)

def unsubscribe (s : Signals) (id : SignalId) (observer : ObserverId) : Bool × Signals :=
  let drop (signal : Signal) :=
    { signal with observers := signal.observers.filter (·.id != observer) }
  ((s.observers id).any (·.id == observer), { s with all := s.all.modify id drop })

/-- The signals above `id`, the nearest first. -/
def ancestors (s : Signals) (id : SignalId) : List SignalId :=
  match s.parent? id with
  | some p => if p < id then p :: ancestors s p else []
  | none => []
termination_by id

/-- The observers of a signal, then those of each signal above it. -/
def calls (s : Signals) (id : SignalId) : List Observer :=
  s.observers id ++ (s.ancestors id).flatMap s.observers

end Signals

end TypedValues
