import TypedValues.Literal
import TypedValues.Number.Kind

/-!
Documents: the trees that values are written to and read from. Objects keep their fields in order,
and each key occurs once.
-/

namespace TypedValues

mutual

inductive Document where
  | null
  | bool (b : Bool)
  | int (z : Int)
  | real (v : Real64)
  | text (s : String)
  | array (items : List Document)
  | object (fields : List Field)

structure Field where
  key : String
  value : Document

end

def Field.get? (key : String) : List Field → Option Document
  | [] => none
  | f :: rest => if f.key = key then some f.value else Field.get? key rest

/-- Replaces the value under a key in its place, or adds the field at the end. -/
def Field.insert (key : String) (value : Document) : List Field → List Field
  | [] => [⟨key, value⟩]
  | f :: rest => if f.key = key then ⟨key, value⟩ :: rest else f :: Field.insert key value rest

/-- Whether an integer fits a document: 64 bits, signed or not. -/
def Document.holdsInt (z : Int) : Bool := IntKind.int64.contains z || IntKind.uint64.contains z

mutual

/-- The literal that a document stands for. Objects stand for none. -/
def Document.literal? : Document → Option Literal
  | .null => some .null
  | .bool b => some (.bool b)
  | .int z => some (.int z)
  | .real v => some (.real v)
  | .text s => some (.text s)
  | .array items => (Document.literals? items).map .list
  | .object _ => none

def Document.literals? : List Document → Option (List Literal)
  | [] => some []
  | d :: ds =>
    match d.literal?, Document.literals? ds with
    | some l, some ls => some (l :: ls)
    | _, _ => none

end

end TypedValues
