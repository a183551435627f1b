import TypedValues.Number.Reading
import TypedValues.Staging.Literal

/-!
Texts for people, in one line: booleans, numbers and lists of them, strings as they are, enum items
by their shown name. Values with members or elements have no such text.
-/

namespace TypedValues.UiText

/-- A fixed number of places if the type asks for it, else the fewest digits for the kind. -/
def realText (kind : RealKind) (decimals : Option Nat) (v : Real64) : String :=
  match decimals with
  | some places => v.fixed places
  | none => (kind.quantize v).textAt kind.format

def joined (parts : List String) : String := ", ".intercalate parts

def write (t : Ty) : Content Ty → Except Error String
  | .bool b => .ok (if b then "true" else "false")
  | .ints zs => .ok (joined (zs.map toString))
  | .text s => .ok s
  | .reals vs =>
    match t.shape with
    | .real kind _ => .ok (joined (vs.map (realText kind t.definition.decimals?)))
    | _ => .error (.notSupported t.path .uiText)
  | .item i =>
    match t.shape with
    | .enum d =>
      match d.items[i]? with
      | some item => .ok item.shownName
      | none => .error (.dataAt t.path .itemIndex)
    | _ => .error (.notSupported t.path .uiText)
  | _ => .error (.notSupported t.path .uiText)

/-- The parts between commas, without blanks around them, each read as a literal. -/
def readParts (t : Ty) (wanted : TextSort) (read? : List Char → Option Literal) :
    List (List Char) → Except Error (List Literal)
  | [] => .ok []
  | part :: rest =>
    let part := Text.trim part
    match read? part with
    | some l => return l :: (← readParts t wanted read? rest)
    | none => .error (.dataAt t.path (.unreadable (String.ofList part) wanted))

/-- A single part of a scalar type is a literal of its own; otherwise the parts form a list. -/
def components (n : Nat) : List Literal → Literal
  | [l] => if n = 1 then l else .list [l]
  | ls => .list ls

def readNumbers (t : Ty) (n : Nat) (wanted : TextSort) (read? : List Char → Option Literal)
    (text : String) : Except Error (Content Ty) := do
  let parts ← readParts t wanted read? (Text.pieces ',' text.toList)
  stageLiteral t (components n parts)

def readBool (t : Ty) (text : String) : Except Error (Content Ty) :=
  let word := String.ofList ((Text.trim text.toList).map Char.toLower)
  if word = "true" then .ok (.bool true)
  else if word = "false" then .ok (.bool false)
  else .error (.dataAt t.path (.unreadable word .boolean))

def readItem (t : Ty) (d : EnumDef) (text : String) : Except Error (Content Ty) :=
  let word := String.ofList (Text.trim text.toList)
  match d.findByAnyName? word with
  | some i => .ok (.item i)
  | none => .error (.dataAt t.path (.unknownItem word))

def read (t : Ty) (text : String) : Except Error (Content Ty) :=
  match t.shape with
  | .bool => readBool t text
  | .integral _ n =>
    readNumbers t n .integer (fun cs => (Reading.integer? cs).map .int) text
  | .real _ n => readNumbers t n .number (fun cs => (Reading.real? cs).map .real) text
  | .string => .ok (.text text)
  | .enum d => readItem t d text
  | _ => .error (.notSupported t.path .uiText)

end TypedValues.UiText
