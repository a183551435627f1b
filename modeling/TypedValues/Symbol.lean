import TypedValues.Path

/-!
Symbols: named nodes of a namespace. A symbol remembers its qualified path, which changes only when
the symbol is attached to a new parent.
-/

namespace TypedValues

abbrev ScopeId := Nat

abbrev TypeId := Nat

structure Symbol where
  name : String
  scope : Option ScopeId
  path : Path
  deriving DecidableEq

namespace Symbol

/-- A symbol under no parent: its path is its name. -/
def detached (name : String) : Symbol := ⟨name, none, Path.root.child name⟩

def root : Symbol := ⟨"", none, Path.root⟩

def attach (s : Symbol) (scope : Option ScopeId) (parent : Path) : Symbol :=
  ⟨s.name, scope, parent.child s.name⟩

end Symbol

inductive NameFault where
  | empty
  | invalid (name : String) (c : Char)
  deriving DecidableEq

/-- Characters with a meaning in paths or selectors. -/
def isReserved (c : Char) : Bool := c == ':' || c == '.' || c == '[' || c == ']'

/-- A name is not empty and holds neither blanks nor reserved characters. -/
def nameFault? (name : String) : Option NameFault :=
  if name.isEmpty then some .empty
  else (name.toList.find? fun c => Text.isBlank c || isReserved c).map (.invalid name)

def NameFault.message : NameFault → String
  | .empty => "symbol names cannot be empty"
  | .invalid name c => s!"symbol name '{name}' contains invalid character '{c}'"

end TypedValues
