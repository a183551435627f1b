import TypedValues.Document.Decode
import TypedValues.UiText
import TypedValues.Value.Access
import TypedValues.Value.Merge

/-!
Changes of values. A change is staged first, which may fail and touches nothing; the edit that comes
of it is then committed, which cannot fail. Construction calls no observer, a replacement calls them
only if the content changed, and array edits always do.
-/

namespace TypedValues

inductive Change where
  | construct (entries : List InitEntry)
  | copyConstruct (other : Snapshot)
  | assign (entries : List InitEntry)
  | copyAssign (other : Snapshot)
  | deserialize (d : Document)
  | parseUi (text : String)
  | pushDefault
  | insertDefault (index : Nat)
  | remove (index : Nat)
  | setActiveAlternative (index : Nat)

def Change.set (l : Literal) : Change := .assign [⟨none, .operand (.literal l)⟩]

/-- What a staged change does to the value. -/
inductive Edit where
  | install (content : Content Ty)
  | replace (content : Content Ty)
  | insert (index : Nat) (element : Node Ty)
  | remove (index : Nat)
  | keep

namespace Holder

variable {α : Type} [HasType α]

def ensureUnconstructed (h : Holder α) : Attempt Error Unit :=
  if h.isConstructed then Attempt.violate h.type.path .alreadyConstructed else pure ()

def stageCopy (h : Holder α) (other : Snapshot) : Attempt Error (Content Ty) :=
  match other.content with
  | none => Attempt.violate other.type.path .unconstructedOperand
  | some content =>
    if h.type.compatible other.type then pure content
    else Attempt.fail (.incompatible h.type.path (.type other.type.path))

def elementType (h : Holder α) (operation : Operation) : Attempt Error Ty :=
  match h.type.shape with
  | .array (some element) => pure element
  | _ => h.unsupported operation

/-- A default element at a position that is at most the length. -/
def stageInsert (h : Holder α) (index : Nat) : Attempt Error Edit := do
  let length := (← h.elements).length
  if length < index then h.refuse (.indexOutside index length)
  let element ← h.elementType .insertDefault
  return .insert index ⟨element, ← defaultContent element⟩

/-- Another alternative with its default; the active one is left alone. -/
def stageAlternative (h : Holder α) (index : Nat) : Attempt Error Edit := do
  match ← h.constructed with
  | .variant active _ =>
    if active = index then return .keep
    else match h.type.shape.arguments[index]? with
      | some alternative =>
        return .replace (.variant index ⟨alternative, ← defaultContent alternative⟩)
      | none => h.refuse (.noAlternativeAt index)
  | _ => h.unsupported .setActiveAlternative

/-- The edit that a change makes of this value; a pushed element also gives its position. -/
def stageChange (h : Holder α) : Change → Attempt Error (Edit × Option Nat)
  | .construct entries => do
    h.ensureUnconstructed
    return (.install (← stageList h.type entries), none)
  | .copyConstruct other => do
    h.ensureUnconstructed
    return (.install (← h.stageCopy other), none)
  | .assign entries => do
    return (.replace (← restage h.type (← h.constructed) entries), none)
  | .copyAssign other => do
    let _ ← h.constructed
    return (.replace (← h.stageCopy other), none)
  | .deserialize d => do
    let _ ← h.constructed
    return (.replace (← decode h.type d), none)
  | .parseUi text => do
    let _ ← h.constructed
    return (.replace (← UiText.read h.type text), none)
  | .pushDefault => do
    let length := (← h.elements).length
    return (← h.stageInsert length, some length)
  | .insertDefault index => do return (← h.stageInsert index, none)
  | .remove index => do
    let length := (← h.elements).length
    if length ≤ index then h.refuse (.indexOutside index length)
    return (.remove index, none)
  | .setActiveAlternative index => do return (← h.stageAlternative index, none)

end Holder

structure Committed (τ : Type) where
  tree : τ
  signals : Signals
  events : List Event

def notifications (called : List Observer) : List Event := called.map .notified

namespace Edit

def plantContent (cell : Cell) (content : Content Ty) (s : Signals) :
    Committed (Option (Content Cell)) :=
  let (content, s) := content.plant cell.signal s
  ⟨some content, s, [.constructed cell.type.path]⟩

/-- An event at a node, after which the observers there and above are called. -/
def announce (cell : Cell) (e : Event) (s : Signals) : List Event :=
  e :: notifications (s.calls cell.signal)

def mapElements (f : List (Node Cell) → List (Node Cell)) :
    Option (Content Cell) → Option (Content Cell)
  | some (.array elements) => some (.array (f elements))
  | current => current

/-- Carries an edit out on the content of one node. -/
def commit (e : Edit) (cell : Cell) (current : Option (Content Cell)) (s : Signals) :
    Committed (Option (Content Cell)) :=
  let path := cell.type.path
  match e, current with
  | .install content, _ => plantContent cell content s
  | .replace content, none => plantContent cell content s
  | .replace content, some old =>
    let m := old.merge cell.signal content s
    let events := if m.changed then announce cell (.changed path) m.signals else []
    ⟨some m.tree, m.signals, notifications m.called ++ events⟩
  | .insert i element, current =>
    let (node, s) := element.plant cell.signal s
    ⟨mapElements (·.insertIdx i node) current, s, announce cell (.inserted path i) s⟩
  | .remove i, current =>
    ⟨mapElements (·.eraseIdx i) current, s, announce cell (.removed path i) s⟩
  | .keep, current => ⟨current, s, []⟩

end Edit

namespace Holder

def commit (v : Value) (location : Location) (e : Edit) (s : Signals) : Committed Value :=
  match v.content, location with
  | current, [] =>
    let c := e.commit v.label current s
    ⟨⟨v.label, c.tree⟩, c.signals, c.events⟩
  | none, _ => ⟨v, s, []⟩
  | some content, location =>
    let root : Node Cell := ⟨v.label, content⟩
    match root.get? location with
    | none => ⟨v, s, []⟩
    | some node =>
      let c := e.commit node.label (some node.content) s
      let root := root.set location ⟨node.label, c.tree.getD node.content⟩
      ⟨root.holder, c.signals, c.events⟩

end Holder

end TypedValues
