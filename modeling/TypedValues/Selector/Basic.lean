import TypedValues.Schema.Basic
import TypedValues.Text.Basic

/-!
Selectors: paths from a value to one of its descendants. The text of a selector joins member names by
points and puts positions in brackets; a step into a variant shows its type between angles.
-/

namespace TypedValues

inductive Step where
  | member (name : String)
  | index (i : Nat)
  /-- Into a variant whose active alternative is of this type. -/
  | variantAs (type : Ty)

abbrev Selector := List Step

namespace Step

/-- Types are compared with aliases resolved. -/
def equals : Step → Step → Bool
  | member a, member b => a == b
  | index i, index j => i == j
  | variantAs s, variantAs t => s.compatible t
  | _, _ => false

def shown : Step → String
  | member name => "." ++ name
  | index i => "[" ++ toString i ++ "]"
  | variantAs type => "<" ++ type.path.text ++ ">"

def inspectType (type : Ty) : String := "TypeRef(" ++ type.path.text ++ ")"

def inspect : Step → String
  | member name => "Member(" ++ Text.quoted name ++ ")"
  | index i => "Index(" ++ toString i ++ ")"
  | variantAs type => "VariantAs(" ++ inspectType type ++ ")"

end Step

namespace Selector

def equals : Selector → Selector → Bool
  | [], [] => true
  | a :: as, b :: bs => a.equals b && equals as bs
  | _, _ => false

/-- A leading member has no point in front. -/
def shown : Selector → String
  | [] => ""
  | .member name :: rest => name ++ String.join (rest.map Step.shown)
  | s :: rest => s.shown ++ String.join (rest.map Step.shown)

end Selector

end TypedValues
