import TypedValues.Session.Action
import TypedValues.Value.Change
import TypedValues.Value.Select

/-!
The operations of a host on its session: registering scopes and types, sealing definitions, making
and changing values, observing them.
-/

namespace TypedValues.Session

/-- Replaces the namespace. What was sealed before stays usable. -/
def renew (withBuiltins : Bool) : Action Error Unit := do
  let s ← Action.get
  if withBuiltins then
    let space := Namespace.withBuiltins s.nextIdentity
    Action.set { s with space, nextIdentity := s.nextIdentity + Namespace.builtins.length }
    Action.record space.builtinEvents
  else Action.set { s with space := .empty }

def addScope (parent : ScopeId) (name : String) (label : Option String) :
    Action Error ScopeId := do
  let s ← Action.get
  let (id, space) ← s.space.addScope parent name
  Action.set { s with space, scopes := s.scopes.keep label id }
  return id

/-- Registers and seals a definition. It is out of its table from then on, also when it is refused. -/
def addType (draft : String) (d : Definition) (scope : ScopeId) (label : Option String) :
    Action Error Ty := do
  Action.modify (·.dropDraft draft)
  let s ← Action.get
  let (t, space) ← s.space.addType scope d s.nextIdentity
  Action.set { s with space, nextIdentity := s.nextIdentity + 1, types := s.types.keep label t }
  return t

/-- Seals a definition without registering it. It leaves its table like a registered one. -/
def sealType (draft : String) (d : Definition) (label : String) : Action Error Ty := do
  Action.modify (·.dropDraft draft)
  let s ← Action.get
  let t ← d.sealed s.nextIdentity
  Action.set { s with nextIdentity := s.nextIdentity + 1, types := s.types.put label t }
  return t

def store (s : Session) (label : String) (v : Snapshot) : Session :=
  let (signal, signals) := s.signals.fresh none
  let cell : Cell := ⟨v.type, signal⟩
  match v.content with
  | none => { s with signals, values := s.values.put label ⟨cell, none⟩ }
  | some content =>
    let (content, signals) := content.plant signal signals
    { s with signals, values := s.values.put label ⟨cell, some content⟩ }

def create (s : Session) (label : String) (t : Ty) : Session := s.store label ⟨t, none⟩

/-- Changes the part of a value that a walk from it arrives at. A pushed element gives its position. -/
def change (label : String) (walk : List Access) (c : Change) : Action Stray (Option Nat) := do
  let s ← Action.get
  match s.values.get? label with
  | none => Action.fail .noValue
  | some v =>
    let (location, target) ← v.reachAll walk
    let (edit, position) ← (target.stageChange c).toStray
    let done := v.commit location edit s.signals
    Action.set { s with signals := done.signals, values := s.values.put label done.tree }
    Action.record done.events
    return position

def subscribe (s : Session) (target : Value) (label : String) : Session :=
  let (id, signals) := s.signals.subscribe target.label.signal label
  { s with signals, observers := s.observers.put label id }

def unsubscribe (s : Session) (target : Value) (observer : ObserverId) : Session × Bool :=
  let (found, signals) := s.signals.unsubscribe target.label.signal observer
  ({ s with signals }, found)

end TypedValues.Session
