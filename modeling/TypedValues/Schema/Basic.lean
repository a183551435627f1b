import TypedValues.Content
import TypedValues.Literal
import TypedValues.Number.Kind
import TypedValues.Symbol

/-!
Types. A sealed type is a tree: it holds the sealed types it is made of, and an identity that no
other sealed type of the session has. A definition is the same record without an identity, and can
still change.
-/

namespace TypedValues

/-- What an attribute carries: a literal, or a reference to a symbol. -/
inductive AttributeValue where
  | literal (l : Literal)
  | symbol (p : Path)

structure Attribute where
  name : String
  value : AttributeValue

structure EnumItem where
  name : String
  value : Int
  uiName : Option String
  deriving DecidableEq

structure EnumDef where
  items : List EnumItem
  defaultItem : Option Nat
  deriving DecidableEq

inductive Kind where
  | bool | integral | real | string | enum | optional | variant | struct | array
  deriving DecidableEq

def Kind.name : Kind → String
  | bool => "bool"
  | integral => "integral"
  | real => "real"
  | string => "string"
  | enum => "enum"
  | optional => "optional"
  | variant => "variant"
  | struct => "struct"
  | array => "array"

mutual

structure Ty where
  /-- Tells sealed types apart, also where all else agrees. -/
  identity : Nat
  symbol : Symbol
  id : Option TypeId
  shape : Shape
  attributes : List Attribute
  /-- The type of which this one is an alias. -/
  aliased : Option Ty

/-- The part of a type that depends on its kind. Templates have no arguments until they are
instantiated. -/
inductive Shape where
  | bool
  | integral (kind : IntKind) (components : Nat)
  | real (kind : RealKind) (components : Nat)
  | string
  | enum (definition : EnumDef)
  | optional (argument : Option Ty)
  | variant (alternatives : List Ty)
  /-- All members, those of the base first. -/
  | struct (base : Option Ty) (members : List Member)
  | array (argument : Option Ty)

structure Member where
  symbol : Symbol
  type : Ty
  /-- The declared default, which has a type of its own. -/
  default : Option (Node Ty)

end

/-- A type under definition, or what a sealed type says. -/
structure Definition where
  symbol : Symbol
  id : Option TypeId
  shape : Shape
  attributes : List Attribute
  aliased : Option Ty

namespace EnumDef

def empty : EnumDef := ⟨[], none⟩

def find? (d : EnumDef) (name : String) : Option Nat := d.items.findIdx? (·.name == name)

end EnumDef

/-- The name shown to people: the item's own one unless another was given. -/
def EnumItem.shownName (i : EnumItem) : String := i.uiName.getD i.name

/-- Names come before shown names, whatever the positions. -/
def EnumDef.findByAnyName? (d : EnumDef) (text : String) : Option Nat :=
  (d.find? text).orElse fun _ => d.items.findIdx? (·.shownName == text)

namespace Shape

def kind : Shape → Kind
  | bool => .bool
  | integral .. => .integral
  | real .. => .real
  | string => .string
  | enum _ => .enum
  | optional _ => .optional
  | variant _ => .variant
  | struct .. => .struct
  | array _ => .array

def isTemplate (s : Shape) : Bool :=
  match s.kind with
  | .optional | .variant | .array => true
  | _ => false

def arguments : Shape → List Ty
  | optional argument => argument.toList
  | array argument => argument.toList
  | variant alternatives => alternatives
  | _ => []

def members : Shape → List Member
  | struct _ members => members
  | _ => []

def base? : Shape → Option Ty
  | struct base _ => base
  | _ => none

def components? : Shape → Option Nat
  | integral _ components => some components
  | real _ components => some components
  | _ => none

def enum? : Shape → Option EnumDef
  | enum d => some d
  | _ => none

end Shape

namespace Ty

def path (t : Ty) : Path := t.symbol.path

def name (t : Ty) : String := t.symbol.name

def kind (t : Ty) : Kind := t.shape.kind

def definition (t : Ty) : Definition := ⟨t.symbol, t.id, t.shape, t.attributes, t.aliased⟩

/-- The innermost source of a chain of aliases. -/
def resolved : Ty → Ty
  | ⟨_, _, _, _, _, some source⟩ => source.resolved
  | t@⟨_, _, _, _, _, none⟩ => t

/-- The same sealed type; aliases count as types of their own. -/
def same (a b : Ty) : Bool := a.identity == b.identity

/-- The same sealed type once aliases are resolved. -/
def compatible (a b : Ty) : Bool := a.resolved.same b.resolved

end Ty

namespace Member

def name (m : Member) : String := m.symbol.name

def path (m : Member) : Path := m.symbol.path

def attach (m : Member) (owner : Path) : Member := ⟨m.symbol.attach none owner, m.type, m.default⟩

end Member

namespace Shape

def inheritedCount (s : Shape) : Nat :=
  match s.base? with
  | some base => base.shape.members.length
  | none => 0

def ownMembers (s : Shape) : List Member := s.members.drop s.inheritedCount

/-- Puts a struct's own members under the owner's path; inherited ones stay with the base. -/
def relink (s : Shape) (owner : Path) : Shape :=
  match s with
  | struct base members =>
    let count := (struct base members).inheritedCount
    struct base (members.take count ++ (members.drop count).map (·.attach owner))
  | s => s

end Shape

def findMember? (members : List Member) (name : String) : Option Nat :=
  members.findIdx? (·.name == name)

namespace Definition

def fresh (name : String) (shape : Shape) : Definition := ⟨.detached name, none, shape, [], none⟩

def path (d : Definition) : Path := d.symbol.path

def name (d : Definition) : String := d.symbol.name

def kind (d : Definition) : Kind := d.shape.kind

end Definition

structure ItemRef where
  type : Ty
  index : Nat

namespace ItemRef

def item? (r : ItemRef) : Option EnumItem := r.type.shape.enum?.bind (·.items[r.index]?)

def name (r : ItemRef) : String := (r.item?.map (·.name)).getD ""

def path (r : ItemRef) : Path := r.type.path.child r.name

def find? (type : Ty) (name : String) : Option ItemRef := do
  let d ← type.shape.enum?
  let index ← d.find? name
  return ⟨type, index⟩

end ItemRef

/-- Labels that tell the type of a node. -/
class HasType (α : Type) where
  type : α → Ty

instance : HasType Ty := ⟨id⟩

def Node.type {α : Type} [HasType α] (n : Node α) : Ty := HasType.type n.label

def Holder.type {α : Type} [HasType α] (h : Holder α) : Ty := HasType.type h.label

def Holder.isConstructed {α : Type} (h : Holder α) : Bool := h.content.isSome

/-- What a value holds at one moment: its type, and content if it is constructed. -/
abbrev Snapshot := Holder Ty

end TypedValues
