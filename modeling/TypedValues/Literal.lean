import TypedValues.Number.Layout

/-!
Literals: untyped input, converted to the type it is given to. Integers are as wide as 128 bits
allow, reals are doubles.
-/

namespace TypedValues

inductive Literal where
  | null
  | bool (b : Bool)
  | int (z : Int)
  | real (v : Real64)
  | text (s : String)
  | list (items : List Literal)

namespace Literal

inductive Kind where
  | null | bool | integer | real | string | list
  deriving DecidableEq

def Kind.name : Kind → String
  | null => "null"
  | bool => "bool"
  | integer => "integer"
  | real => "real"
  | string => "string"
  | list => "list"

def kind : Literal → Kind
  | null => .null
  | bool _ => .bool
  | int _ => .integer
  | real _ => .real
  | text _ => .string
  | list _ => .list

def asText? : Literal → Option String
  | text s => some s
  | _ => none

def asInt? : Literal → Option Int
  | int z => some z
  | _ => none

def asReal? : Literal → Option Real64
  | int z => some (.ofInt z)
  | real v => some v
  | _ => none

mutual

/-- How a literal is shown: strings between quotes, unescaped, and lists in brackets. -/
def shown : Literal → String
  | null => "null"
  | bool b => if b then "true" else "false"
  | int z => toString z
  | real v => v.text
  | text s => "\"" ++ s ++ "\""
  | list items => "[" ++ ", ".intercalate (shownAll items) ++ "]"

def shownAll : List Literal → List String
  | [] => []
  | l :: ls => shown l :: shownAll ls

end

mutual

/-- Equality in which reals compare as numbers, so a literal holding not-a-number is not equal to
itself. -/
def equals : Literal → Literal → Bool
  | null, null => true
  | bool a, bool b => a == b
  | int a, int b => a == b
  | real a, real b => a.equals b
  | text a, text b => a == b
  | list a, list b => equalsAll a b
  | _, _ => false

def equalsAll : List Literal → List Literal → Bool
  | [], [] => true
  | a :: as, b :: bs => equals a b && equalsAll as bs
  | _, _ => false

end

end Literal

end TypedValues
