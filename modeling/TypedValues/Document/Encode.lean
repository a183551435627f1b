import TypedValues.Document.Basic
import TypedValues.Error

/-!
Writing values as documents. A struct becomes an object in declaration order, a variant an object
with the path of its alternative, an optional its inner document or null.
-/

namespace TypedValues

def variantTypeKey : String := "type"

def variantValueKey : String := "value"

def encodeInt (t : Ty) (z : Int) : Except Error Document :=
  if Document.holdsInt z then .ok (.int z) else .error (.dataAt t.path (.intNotEncodable z))

def encodeReal (t : Ty) (v : Real64) : Except Error Document :=
  if v.isFinite then .ok (.real v) else .error (.dataAt t.path (.realNotEncodable v))

/-- One component is written alone, any other number of them as an array. -/
def encodeComponents {α : Type} (component : α → Except Error Document) :
    List α → Except Error Document
  | [a] => component a
  | components => return .array (← components.mapM component)

mutual

def encode (t : Ty) : Content Ty → Except Error Document
  | .bool b => .ok (.bool b)
  | .ints zs => encodeComponents (encodeInt t) zs
  | .reals vs => encodeComponents (encodeReal t) vs
  | .text s => .ok (.text s)
  | .item i =>
    match ItemRef.item? ⟨t, i⟩ with
    | some item => .ok (.text item.name)
    | none => .error (.dataAt t.path .itemIndex)
  | .optional none => .ok .null
  | .optional (some inner) => encodeNode inner
  | .variant i inner =>
    match t.shape.arguments[i]? with
    | some alternative =>
      return .object [⟨variantTypeKey, .text alternative.path.text⟩,
        ⟨variantValueKey, ← encodeNode inner⟩]
    | none => .error (.dataAt t.path .variantIndex)
  | .struct members => return .object (← encodeMembers t.shape.members members)
  | .array elements => return .array (← encodeElements 0 elements)

def encodeNode : Node Ty → Except Error Document
  | ⟨t, content⟩ => encode t content

def encodeMembers (members : List Member) : List (Node Ty) → Except Error (List Field)
  | [] => .ok []
  | node :: rest =>
    match members with
    | [] => .ok []
    | m :: ms => do
      let d ← underSite (.member m.path) (encodeNode node)
      return ⟨m.name, d⟩ :: (← encodeMembers ms rest)

def encodeElements (i : Nat) : List (Node Ty) → Except Error (List Document)
  | [] => .ok []
  | node :: rest => do
    let d ← underSite (.element i) (encodeNode node)
    return d :: (← encodeElements (i + 1) rest)

end

theorem encodeNode_eq (n : Node Ty) : encodeNode n = encode n.type n.content := by
  rcases n with ⟨t, c⟩
  rw [encodeNode]; rfl

theorem encode_some (t : Ty) (n : Node Ty) : encode t (.optional (some n)) = encode n.type n.content := by
  rw [encode, encodeNode_eq]

end TypedValues
