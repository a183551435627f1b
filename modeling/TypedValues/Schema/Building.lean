import TypedValues.Attempt
import TypedValues.Schema.Attribute

/-!
Building types: template arguments, enum items, members, bases, clones and aliases. A refused step
leaves the definition as it was. A definition is sealed once it is complete.
-/

namespace TypedValues

inductive Argument where
  | type (t : Ty)
  | literal (l : Literal)

namespace Definition

def refuse {α : Type} (d : Definition) (cause : SchemaCause) : Except Error α :=
  .error (.schemaAt d.path cause)

/-- An alias takes its shape from its source and cannot change it. -/
def ensureSource (d : Definition) (change : SourceChange) : Except Error Unit :=
  match d.aliased with
  | some source => d.refuse (.aliasOf source.path change)
  | none => .ok ()

def ensureName (d : Definition) (name : String) : Except Error Unit :=
  match nameFault? name with
  | some fault => d.refuse (.badName fault)
  | none => .ok ()

/-- The types among the arguments, which must be all of them. -/
def argumentTypes (d : Definition) (i : Nat) : List Argument → Except Error (List Ty)
  | [] => .ok []
  | .type t :: rest => return t :: (← d.argumentTypes (i + 1) rest)
  | .literal l :: _ => d.refuse (.argumentNotType i l.kind)

def repeated? (before : List Ty) : List Ty → Option Ty
  | [] => none
  | t :: rest => if before.any (·.compatible t) then some t else repeated? (before ++ [t]) rest

def instantiated (d : Definition) (types : List Ty) : Except Error Shape :=
  match d.shape, types with
  | .optional _, [t] => .ok (.optional (some t))
  | .array _, [t] => .ok (.array (some t))
  | .optional _, _ | .array _, _ => d.refuse (.argumentCount types.length)
  | .variant _, _ =>
    if types.length < 2 then d.refuse (.alternativeCount types.length)
    else match repeated? [] types with
      | some t => d.refuse (.alternativeRepeated t.path)
      | none => .ok (.variant types)
  | shape, _ => .ok shape

def instantiate (d : Definition) (arguments : List Argument) : Attempt Error Definition := do
  d.ensureSource .instantiate
  if !d.shape.isTemplate then Attempt.fail (.schemaAt d.path (.notTemplate d.kind))
  if !d.shape.arguments.isEmpty then Attempt.fail (.schemaAt d.path .instantiatedTwice)
  let types ← d.argumentTypes 0 arguments
  let shape ← d.instantiated types
  Attempt.emit (.instantiated d.path types.length)
  return { d with shape }

def addItem (d : Definition) (item : EnumItem) : Except Error Definition := do
  d.ensureSource .addItem
  d.ensureName item.name
  match d.shape with
  | .enum e =>
    if (e.find? item.name).isSome then d.refuse (.itemRepeated item.name)
    else return { d with shape := .enum { e with items := e.items ++ [item] } }
  | _ => d.refuse .notEnum

def setDefaultItem (d : Definition) (name : String) : Except Error Definition := do
  d.ensureSource .setDefaultItem
  match d.shape with
  | .enum e =>
    match e.find? name with
    | some i => return { d with shape := .enum { e with defaultItem := some i } }
    | none => d.refuse (.itemUnknown name)
  | _ => d.refuse .notEnum

/-- Adds a member under the struct's path. Its name must be new to the base and to the struct. -/
def addMember (d : Definition) (m : Member) : Except Error Definition := do
  d.ensureSource .addMember
  d.ensureName m.name
  match d.shape with
  | .struct base members =>
    match base with
    | some b =>
      if (findMember? b.shape.members m.name).isSome then d.refuse (.memberInBase m.name b.path)
    | none => pure ()
    if (findMember? members m.name).isSome then d.refuse (.memberRepeated m.name)
    else return { d with shape := .struct base (members ++ [m.attach d.path]) }
  | _ => d.refuse .notStruct

def setBase (d : Definition) (base : Ty) : Except Error Definition := do
  d.ensureSource .setBase
  match d.shape with
  | .struct (some _) _ => d.refuse .baseRepeated
  | .struct none members =>
    match base.shape with
    | .struct _ inherited =>
      match members.find? fun m => (findMember? inherited m.name).isSome with
      | some clash => d.refuse (.memberInBase clash.name base.path)
      | none => return { d with shape := .struct (some base) (inherited ++ members) }
    | _ => d.refuse (.baseNotStruct base.path)
  | _ => d.refuse .noBase

def fault? (d : Definition) : Option SchemaCause :=
  match nameFault? d.name with
  | some fault => some (.badName fault)
  | none =>
    match d.shape with
    | .integral _ n | .real _ n =>
      if 1 ≤ n ∧ n ≤ maxComponents then none else some (.componentCount n)
    | .enum e => if e.items.isEmpty then some .noItems else none
    | shape =>
      if shape.isTemplate ∧ shape.arguments.isEmpty then some .notInstantiated else none

/-- The type of this definition under an identity that is not yet in use. -/
def withIdentity (d : Definition) (identity : Nat) : Ty :=
  ⟨identity, d.symbol, d.id, d.shape, d.attributes, d.aliased⟩

def sealed (d : Definition) (identity : Nat) : Except Error Ty :=
  match d.fault? with
  | some cause => d.refuse cause
  | none => .ok (d.withIdentity identity)

def register (d : Definition) (scope : ScopeId) (parent : Path) (id : TypeId) : Definition :=
  let symbol := d.symbol.attach (some scope) parent
  { d with symbol, id := some id, shape := d.shape.relink symbol.path }

end Definition

namespace Ty

/-- An independent type of the same build. Arguments and bases are shared with the source. -/
def cloneNamed (t : Ty) (name : String) : Definition :=
  let symbol := Symbol.detached name
  ⟨symbol, none, t.resolved.shape.relink symbol.path, t.attributes, none⟩

/-- Another name for the type. The attribute `native_type` is not taken over. -/
def aliasNamed (t : Ty) (name : String) : Definition :=
  let symbol := Symbol.detached name
  ⟨symbol, none, t.shape.relink symbol.path, t.attributes.filter (·.name != "native_type"), some t⟩

end Ty

/-- A member of the given type; a default must be constructed and of a compatible type. -/
def Member.declare (name : String) (type : Ty) (default : Option Snapshot) :
    Except Error Member := do
  let symbol := Symbol.detached name
  match default with
  | none => return ⟨symbol, type, none⟩
  | some ⟨_, none⟩ => throw (.schemaAt symbol.path .defaultUnconstructed)
  | some ⟨found, some content⟩ =>
    if found.compatible type then return ⟨symbol, type, some ⟨found, content⟩⟩
    else throw (.schemaAt symbol.path (.defaultMismatch found.path type.path))

end TypedValues
