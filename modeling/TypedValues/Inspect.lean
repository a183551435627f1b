import TypedValues.Schema.Basic
import TypedValues.Text.Basic

/-!
The inspection form: values, members and enum items as one line that shows every part. Records are
written with their field names in braces, payloads with the name of their kind.
-/

namespace TypedValues.Inspect

def record (name : String) (fields : List (String × String)) : String :=
  let shown := fields.map fun (key, value) => key ++ ": " ++ value
  name ++ " \x7b " ++ ", ".intercalate shown ++ " \x7d"

def call (name : String) (arguments : List String) : String :=
  name ++ "(" ++ ", ".intercalate arguments ++ ")"

def list (items : List String) : String := "[" ++ ", ".intercalate items ++ "]"

def bool (b : Bool) : String := if b then "true" else "false"

def holder (type : Ty) (payload : String) : String :=
  record "Value" [("type", Text.quoted type.path.text), ("payload", payload)]

mutual

def content : Content Ty → String
  | .bool b => call "Bool" [bool b]
  | .ints zs => call "Int" [list (zs.map toString)]
  | .reals vs => call "Real" [list (vs.map Real64.inspect)]
  | .text s => call "String" [Text.quoted s]
  | .item i => call "Enum" [toString i]
  | .optional none => call "Optional" ["None"]
  | .optional (some inner) => call "Optional" [call "Some" [node inner]]
  | .variant i inner => call "Variant" [toString i, node inner]
  | .struct members => call "Struct" [list (nodes members)]
  | .array elements => call "Array" [list (nodes elements)]

def node : Node Ty → String
  | ⟨type, c⟩ => holder type (call "Some" [content c])

def nodes : List (Node Ty) → List String
  | [] => []
  | n :: rest => node n :: nodes rest

end

def snapshot (v : Snapshot) : String :=
  holder v.type (match v.content with
    | none => "None"
    | some c => call "Some" [content c])

def member (m : Member) : String :=
  record "MemberDef" [("name", Text.quoted m.name), ("type", Text.quoted m.type.path.text),
    ("has_default", bool m.default.isSome)]

def item (r : ItemRef) : String := call "EnumItemRef" [Text.quoted r.path.text]

end TypedValues.Inspect
