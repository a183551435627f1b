import TypedValues.Attempt
import TypedValues.Value.Basic

/-!
Reading values: the parts of a constructed value by kind. Reading a value that is not constructed
breaks the protocol; asking for a part that its kind does not have is an error of its own.
-/

namespace TypedValues.Holder

variable {α : Type} [HasType α]

def constructed (h : Holder α) : Attempt Error (Content α) :=
  match h.content with
  | some content => pure content
  | none => Attempt.violate h.type.path .unconstructed

def unsupported {β : Type} (h : Holder α) (operation : Operation) : Attempt Error β :=
  Attempt.fail (.notSupported h.type.path operation)

def refuse {β : Type} (h : Holder α) (cause : DataCause) : Attempt Error β :=
  Attempt.fail (.dataAt h.type.path cause)

def asBool (h : Holder α) : Attempt Error Bool := do
  match ← h.constructed with
  | .bool b => return b
  | _ => h.unsupported .asBool

def asInt (h : Holder α) : Attempt Error Int := do
  match ← h.constructed with
  | .ints [z] => return z
  | _ => h.unsupported .asInt

def asInts (h : Holder α) : Attempt Error (List Int) := do
  match ← h.constructed with
  | .ints zs => return zs
  | _ => h.unsupported .asInts

def asReal (h : Holder α) : Attempt Error Real64 := do
  match ← h.constructed with
  | .reals [v] => return v
  | _ => h.unsupported .asReal

def asReals (h : Holder α) : Attempt Error (List Real64) := do
  match ← h.constructed with
  | .reals vs => return vs
  | _ => h.unsupported .asReals

def asText (h : Holder α) : Attempt Error String := do
  match ← h.constructed with
  | .text s => return s
  | _ => h.unsupported .asText

def enumItem (h : Holder α) : Attempt Error ItemRef := do
  match ← h.constructed with
  | .item i => return ⟨h.type, i⟩
  | _ => h.unsupported .enumItem

def members (h : Holder α) : Attempt Error (List (Node α)) := do
  match ← h.constructed with
  | .struct members => return members
  | _ => h.unsupported .members

def member (h : Holder α) (i : Nat) : Attempt Error (Node α) := do
  match (← h.members)[i]? with
  | some node => return node
  | none => h.refuse (.noMemberAt i)

/-- The position of a member, from the type alone. -/
def memberIndex (h : Holder α) (name : String) : Attempt Error Nat :=
  if h.type.kind ≠ .struct then h.unsupported .members
  else match findMember? h.type.shape.members name with
    | some i => pure i
    | none => h.refuse (.noMember name)

def memberByName (h : Holder α) (name : String) : Attempt Error (Node α) := do
  h.member (← h.memberIndex name)

def optionalValue (h : Holder α) : Attempt Error (Option (Node α)) := do
  match ← h.constructed with
  | .optional inner => return inner
  | _ => h.unsupported .optionalValue

def variantIndex (h : Holder α) : Attempt Error Nat := do
  match ← h.constructed with
  | .variant i _ => return i
  | _ => h.unsupported .variantIndex

def variantValue (h : Holder α) : Attempt Error (Node α) := do
  match ← h.constructed with
  | .variant _ inner => return inner
  | _ => h.unsupported .variantValue

def elements (h : Holder α) : Attempt Error (List (Node α)) := do
  match ← h.constructed with
  | .array elements => return elements
  | _ => h.unsupported .elements

def element (h : Holder α) (i : Nat) : Attempt Error (Node α) := do
  let elements ← h.elements
  match elements[i]? with
  | some node => return node
  | none => h.refuse (.indexOutside i elements.length)

/-- Structural equality with a constructed value of a compatible type. -/
def isEqual {β : Type} [HasType β] (h : Holder α) (other : Holder β) : Attempt Error Bool := do
  let content ← h.constructed
  match other.content with
  | none => Attempt.violate other.type.path .unconstructedOperand
  | some otherContent =>
    if h.type.compatible other.type then return content.equals otherContent
    else Attempt.fail (.incompatible h.type.path (.type other.type.path))

def tryClone (h : Holder α) : Attempt Error Snapshot := do
  let _ ← h.constructed
  return h.snapshot

end TypedValues.Holder
