import TypedValues.Number.Real64

/-!
The content of constructed values, as a tree whose nodes carry a label. Staged content is labelled
with types; the content of a live value is labelled with types and signals.
-/

namespace TypedValues

mutual

inductive Content (α : Type) where
  | bool (b : Bool)
  | ints (components : List Int)
  | reals (components : List Real64)
  | text (s : String)
  /-- Position of an enum item. -/
  | item (index : Nat)
  | optional (inner : Option (Node α))
  /-- Position of the active alternative, and its value. -/
  | variant (index : Nat) (inner : Node α)
  /-- Members in declaration order, those of the base first. -/
  | struct (members : List (Node α))
  | array (elements : List (Node α))

structure Node (α : Type) where
  label : α
  content : Content α

end

/-- A value: a label, and content from its construction on. -/
structure Holder (α : Type) where
  label : α
  content : Option (Content α)

def Node.holder {α : Type} (n : Node α) : Holder α := ⟨n.label, some n.content⟩

namespace Content

def children {α : Type} : Content α → List (Node α)
  | optional (some inner) => [inner]
  | variant _ inner => [inner]
  | struct members => members
  | array elements => elements
  | _ => []

end Content

mutual

def Content.relabel {α β : Type} (f : α → β) : Content α → Content β
  | .bool b => .bool b
  | .ints zs => .ints zs
  | .reals vs => .reals vs
  | .text s => .text s
  | .item i => .item i
  | .optional none => .optional none
  | .optional (some inner) => .optional (some (inner.relabel f))
  | .variant i inner => .variant i (inner.relabel f)
  | .struct members => .struct (Node.relabelAll f members)
  | .array elements => .array (Node.relabelAll f elements)

def Node.relabel {α β : Type} (f : α → β) : Node α → Node β
  | ⟨label, content⟩ => ⟨f label, content.relabel f⟩

def Node.relabelAll {α β : Type} (f : α → β) : List (Node α) → List (Node β)
  | [] => []
  | n :: ns => n.relabel f :: Node.relabelAll f ns

end

def equalReals : List Real64 → List Real64 → Bool
  | [], [] => true
  | a :: as, b :: bs => a.equals b && equalReals as bs
  | _, _ => false

mutual

/-- Structural equality. Labels do not count, and reals compare as numbers. -/
def Content.equals {α β : Type} : Content α → Content β → Bool
  | .bool a, .bool b => a == b
  | .ints a, .ints b => a == b
  | .reals a, .reals b => equalReals a b
  | .text a, .text b => a == b
  | .item a, .item b => a == b
  | .optional none, .optional none => true
  | .optional (some a), .optional (some b) => a.equals b
  | .variant i a, .variant j b => i == j && a.equals b
  | .struct as, .struct bs => Node.equalsAll as bs
  | .array as, .array bs => Node.equalsAll as bs
  | _, _ => false

def Node.equals {α β : Type} : Node α → Node β → Bool
  | ⟨_, a⟩, ⟨_, b⟩ => a.equals b

def Node.equalsAll {α β : Type} : List (Node α) → List (Node β) → Bool
  | [], [] => true
  | a :: as, b :: bs => a.equals b && Node.equalsAll as bs
  | _, _ => false

end

end TypedValues
