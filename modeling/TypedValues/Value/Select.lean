import TypedValues.Value.Access

/-!
Selecting descendants. Set optionals are stepped through without a step of their own. To read, a
selector gives the node; to write, it gives the node's location as well.
-/

namespace TypedValues

variable {α : Type} [HasType α]

def stepFrom (t : Ty) : Content α → Step → Except Error (Node α)
  | .optional (some ⟨label, content⟩), s => stepFrom (HasType.type label) content s
  | .optional none, s => .error (.dataAt t.path (.step s .emptyOptional))
  | .struct members, .member name =>
    match (findMember? t.shape.members name).bind (members[·]?) with
    | some node => .ok node
    | none => .error (.dataAt t.path (.step (.member name) (.noMember name)))
  | .array elements, .index i =>
    match elements[i]? with
    | some node => .ok node
    | none => .error (.dataAt t.path (.step (.index i) (.length elements.length)))
  | .variant _ inner, .variantAs type =>
    if inner.type.compatible type then .ok inner
    else .error (.dataAt t.path (.step (.variantAs type) (.active inner.type.path)))
  | _, s => .error (.dataAt t.path (.step s (.kind t.kind)))

/-- Where one step leads from content of type `t`, and the node there. -/
def slotFrom? (t : Ty) : Content α → Step → Option (Location × Node α)
  | .optional (some ⟨label, content⟩), s =>
    (slotFrom? (HasType.type label) content s).map fun (location, node) => (0 :: location, node)
  | .struct members, .member name =>
    match findMember? t.shape.members name with
    | some i => members[i]?.map fun node => ([i], node)
    | none => none
  | .array elements, .index i => elements[i]?.map fun node => ([i], node)
  | .variant _ inner, .variantAs _ => some ([0], inner)
  | _, _ => none

namespace Holder

def step (h : Holder α) (s : Step) : Attempt Error (Node α) := do
  stepFrom h.type (← h.constructed) s

/-- A step is checked before its slot is looked up. -/
def slot (h : Holder α) (s : Step) : Attempt Error (Location × Node α) := do
  let content ← h.constructed
  let _ ← stepFrom h.type content s
  match slotFrom? h.type content s with
  | some found => return found
  | none => h.refuse .selectionChanged

def select (h : Holder α) : Selector → Attempt Error (Holder α)
  | [] => pure h
  | s :: rest => do select (← h.step s).holder rest

def locate (h : Holder α) : Selector → Attempt Error (Location × Holder α)
  | [] => pure ([], h)
  | s :: rest => do
    let (location, node) ← h.slot s
    let (below, found) ← locate node.holder rest
    return (location ++ below, found)

def checkKind (found : Holder α) (s : Selector) (kind : Kind) : Attempt Error Unit :=
  if found.type.kind = kind then pure ()
  else found.refuse (.kindMismatch s found.type.kind kind)

/-- Selection that also asks for the kind of the value found. -/
def selectKind (h : Holder α) (s : Selector) (kind : Kind) : Attempt Error (Holder α) := do
  let found ← h.select s
  found.checkKind s kind
  return found

def locateKind (h : Holder α) (s : Selector) (kind : Kind) :
    Attempt Error (Location × Holder α) := do
  let (location, found) ← h.locate s
  found.checkKind s kind
  return (location, found)

end Holder

/-- One step of a walk from a value to a part of it. -/
inductive Access where
  | select (s : Selector)
  | selectKind (s : Selector) (kind : Kind)
  | member (i : Nat)
  | name (n : String)
  | optional
  | variant
  | element (i : Nat)

/-- Why a walk does not arrive: an error, an optional without a value, or no value to start from. -/
inductive Stray where
  | error (e : Error)
  | emptyOptional
  | noValue

def Attempt.toStray {β : Type} (x : Attempt Error β) : Attempt Stray β := x.mapError .error

namespace Holder

def follow (h : Holder α) : Access → Attempt Stray (Holder α)
  | .select s => (h.select s).toStray
  | .selectKind s kind => (h.selectKind s kind).toStray
  | .member i => do return (← (h.member i).toStray).holder
  | .name n => do return (← (h.memberByName n).toStray).holder
  | .optional => do
    match ← h.optionalValue.toStray with
    | some node => return node.holder
    | none => Attempt.fail .emptyOptional
  | .variant => do return (← h.variantValue.toStray).holder
  | .element i => do return (← (h.element i).toStray).holder

/-- Walks one step to write: also tells where it leads. -/
def reach (h : Holder α) : Access → Attempt Stray (Location × Holder α)
  | .select s => (h.locate s).toStray
  | .selectKind s kind => (h.locateKind s kind).toStray
  | .member i => do return ([i], (← (h.member i).toStray).holder)
  | .name n => do
    let i ← (h.memberIndex n).toStray
    return ([i], (← (h.member i).toStray).holder)
  | .optional => do
    match ← h.optionalValue.toStray with
    | some node => return ([0], node.holder)
    | none => Attempt.fail .emptyOptional
  | .variant => do return ([0], (← h.variantValue.toStray).holder)
  | .element i => do return ([i], (← (h.element i).toStray).holder)

def followAll (h : Holder α) : List Access → Attempt Stray (Holder α)
  | [] => pure h
  | a :: rest => do followAll (← h.follow a) rest

def reachAll (h : Holder α) : List Access → Attempt Stray (Location × Holder α)
  | [] => pure ([], h)
  | a :: rest => do
    let (location, node) ← h.reach a
    let (below, found) ← reachAll node rest
    return (location ++ below, found)

end Holder

end TypedValues
