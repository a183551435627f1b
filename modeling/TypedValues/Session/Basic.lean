import TypedValues.Namespace
import TypedValues.Value.Basic

/-!
Sessions: a namespace, live values with their signals, and the names under which a host keeps scopes,
definitions, types, values and observers.
-/

namespace TypedValues

/-- Entries by label, the latest first. -/
abbrev Table (α : Type) := List (String × α)

namespace Table

variable {α : Type}

def get? (t : Table α) (label : String) : Option α := (t.find? (·.1 == label)).map (·.2)

def erase (t : Table α) (label : String) : Table α := t.filter (·.1 != label)

def put (t : Table α) (label : String) (a : α) : Table α := (label, a) :: t.erase label

def keep (t : Table α) (label : Option String) (a : α) : Table α :=
  match label with
  | some label => t.put label a
  | none => t

theorem get?_put {α : Type} (t : Table α) (label other : String) (a : α) :
    (t.put label a).get? other = if label = other then some a else t.get? other := by
  by_cases h : label = other
  · simp [put, get?, h]
  · have hfind : (erase t label).find? (·.1 == other) = t.find? (·.1 == other) := by
      induction t with
      | nil => rfl
      | cons e t ih =>
        by_cases he : e.1 = label
        · simpa [erase, he, h] using ih
        · by_cases ho : e.1 = other <;> simp_all [erase]
    simp [put, get?, h, hfind]

end Table

structure Session where
  space : Namespace
  policy : Policy
  /-- The identity of the next type to be sealed. -/
  nextIdentity : Nat
  signals : Signals
  scopes : Table ScopeId
  drafts : Table Definition
  types : Table Ty
  values : Table Value
  observers : Table ObserverId

namespace Session

def initial : Session where
  space := .withBuiltins 0
  policy := .report
  nextIdentity := Namespace.builtins.length
  signals := .empty
  scopes := [("root", Namespace.rootScope)]
  drafts := []
  types := []
  values := []
  observers := []

/-- A type by its label, else by its qualified path. -/
def findType? (s : Session) (reference : String) : Option Ty :=
  (s.types.get? reference).orElse fun _ => s.space.findType? (Path.parse reference)

def putDraft (s : Session) (label : String) (d : Definition) : Session :=
  { s with drafts := s.drafts.put label d }

def dropDraft (s : Session) (label : String) : Session := { s with drafts := s.drafts.erase label }

end Session

end TypedValues
