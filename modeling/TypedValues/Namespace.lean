import TypedValues.Schema.Building

/-!
Namespaces: a tree of scopes and the types registered in them. Scopes and types are numbered in the
order of their registration, and their qualified paths are unique among both.
-/

namespace TypedValues

structure Scope where
  symbol : Symbol
  scopes : List ScopeId
  types : List TypeId

inductive Entry where
  | scope (id : ScopeId)
  | type (id : TypeId)

structure Namespace where
  scopes : Array Scope
  types : Array Ty
  /-- What is registered at each path. -/
  index : List (Path × Entry)

namespace Namespace

def rootScope : ScopeId := 0

def empty : Namespace := ⟨#[⟨.root, [], []⟩], #[], []⟩

def entry? (ns : Namespace) (p : Path) : Option Entry :=
  (ns.index.find? (·.1 == p)).map (·.2)

def type? (ns : Namespace) (id : TypeId) : Option Ty := ns.types[id]?

def scopePath? (ns : Namespace) (id : ScopeId) : Option Path := ns.scopes[id]?.map (·.symbol.path)

def scopeParent? (ns : Namespace) (id : ScopeId) : Option ScopeId :=
  ns.scopes[id]?.bind (·.symbol.scope)

def scopeTypes (ns : Namespace) (id : ScopeId) : List Ty :=
  match ns.scopes[id]? with
  | some s => s.types.filterMap ns.type?
  | none => []

def findType? (ns : Namespace) (p : Path) : Option Ty :=
  match ns.entry? p with
  | some (.type id) => ns.type? id
  | _ => none

/-- The empty path is the root scope. -/
def findScope? (ns : Namespace) (p : Path) : Option ScopeId :=
  if p.isRoot then some rootScope
  else match ns.entry? p with
    | some (.scope id) => some id
    | _ => none

/-- Looks for `name` under the path whose segments are given innermost first, then under each path
that encloses it. -/
def resolveUnder (ns : Namespace) (name : Path) : List String → Option Ty
  | [] => ns.findType? name
  | s :: outer =>
    (ns.findType? (Path.append ⟨(s :: outer).reverse⟩ name)).orElse fun _ =>
      resolveUnder ns name outer

/-- The type that `name` means inside a scope: the innermost scope around it that has one. -/
def resolveType? (ns : Namespace) (scope : ScopeId) (name : String) : Option Ty := do
  let base ← ns.scopePath? scope
  ns.resolveUnder (Path.parse name) base.segments.reverse

def checkedScope (ns : Namespace) (scope : ScopeId) : Except Error Path :=
  match ns.scopePath? scope with
  | some p => .ok p
  | none => .error (.schema (.scope scope) .unknownScope)

/-- The path of a new entry: its name must be valid and its path free. -/
def checkedPath (ns : Namespace) (parent : Path) (name : String) : Except Error Path :=
  let path := parent.child name
  match nameFault? name with
  | some fault => .error (.schemaAt path (.badName fault))
  | none =>
    if (ns.entry? path).isSome then .error (.schemaAt path .declared) else .ok path

def addScope (ns : Namespace) (parent : ScopeId) (name : String) :
    Except Error (ScopeId × Namespace) := do
  let base ← ns.checkedScope parent
  let path ← ns.checkedPath base name
  let id := ns.scopes.size
  let scopes := ns.scopes.modify parent fun s => { s with scopes := s.scopes ++ [id] }
  let symbol := (Symbol.detached name).attach (some parent) base
  return (id, { ns with scopes := scopes.push ⟨symbol, [], []⟩, index := (path, .scope id) :: ns.index })

/-- Files a type whose symbol is attached to its scope already. -/
def insert (ns : Namespace) (scope : ScopeId) (t : Ty) : Namespace :=
  let id := ns.types.size
  { scopes := ns.scopes.modify scope fun s => { s with types := s.types ++ [id] }
    types := ns.types.push t
    index := (t.path, .type id) :: ns.index }

def addType (ns : Namespace) (scope : ScopeId) (d : Definition) (identity : Nat) :
    Attempt Error (Ty × Namespace) := do
  let base ← ns.checkedScope scope
  let _ ← ns.checkedPath base d.name
  let t ← (d.register scope base ns.types.size).sealed identity
  Attempt.emit (.registered t.path t.kind)
  return (t, ns.insert scope t)

/-- Builtin types are valid, and each has a name of its own. -/
def addBuiltin (ns : Namespace) (d : Definition) (identity : Nat) : Namespace :=
  ns.insert rootScope ((d.register rootScope .root ns.types.size).withIdentity identity)

/-- A scalar goes by the name of its kind, a vector by its length and the kind's suffix. -/
def builtinName (scalar suffix : String) (components : Nat) : String :=
  if components = 1 then scalar else s!"vec{components}{suffix}"

/-- The builtin types: bool, string, then scalars and vectors of every numeric kind. -/
def builtins : List Definition :=
  [.fresh "bool" .bool, .fresh "string" .string] ++
    [1, 2, 3, 4].flatMap fun n =>
      IntKind.all.map (fun k => .fresh (builtinName k.name k.suffix n) (.integral k n)) ++
        RealKind.all.map fun k => .fresh (builtinName k.name k.suffix n) (.real k n)

def addBuiltins (ns : Namespace) (identity : Nat) : List Definition → Namespace
  | [] => ns
  | d :: ds => (ns.addBuiltin d identity).addBuiltins (identity + 1) ds

/-- A namespace with the builtin types in its root scope, numbered from `identity` on. -/
def withBuiltins (identity : Nat) : Namespace := empty.addBuiltins identity builtins

def builtinEvents (ns : Namespace) : List Event :=
  ns.types.toList.map (fun t => .registered t.path t.kind) ++ [.builtins ns.types.size]

end Namespace

end TypedValues
