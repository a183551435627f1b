import TypedValues.Document.Encode
import TypedValues.Staging.List

/-!
Reading values from documents. Unknown fields of a struct are skipped and leave an event, absent
ones take the member's default. A variant's alternative is named by its path, its plain name or the
path of the type it is an alias of, in this order.
-/

namespace TypedValues

def Document.kind : Document → DocumentKind
  | .null => .null
  | .bool _ => .boolean
  | .int _ | .real _ => .number
  | .text _ => .string
  | .array _ => .array
  | .object _ => .object

def unexpected {α : Type} (t : Ty) (what : Expectation) (d : Document) : Except Error α :=
  .error (.dataAt t.path (.expected what d.kind))

/-- The literal that a document gives to a type without structure. -/
def scalarLiteral? : Document → Option Literal
  | .null => none
  | d => d.literal?

def decodeScalar (t : Ty) (d : Document) : Except Error (Content Ty) :=
  match scalarLiteral? d with
  | some l => stageLiteral t l
  | none => unexpected t .scalar d

def decodeItem (t : Ty) (e : EnumDef) : Document → Except Error (Content Ty)
  | .text name =>
    match e.find? name with
    | some i => .ok (.item i)
    | none => .error (.dataAt t.path (.unknownItem name))
  | d => unexpected t .itemName d

def findAlternative? (alternatives : List Ty) (name : String) : Option Nat :=
  ((alternatives.findIdx? (·.path.text == name)).orElse fun _ =>
    alternatives.findIdx? (·.name == name)).orElse fun _ =>
      alternatives.findIdx? (·.resolved.path.text == name)

/-- The alternative and the inner document of a variant's fields. -/
def variantFields (t : Ty) (alternatives : List Ty) (fields : List Field) :
    Except Error (Nat × Document) :=
  match Field.get? variantTypeKey fields with
  | some (.text name) =>
    match Field.get? variantValueKey fields with
    | some inner =>
      match findAlternative? alternatives name with
      | some i => .ok (i, inner)
      | none => .error (.dataAt t.path (.noAlternativeNamed name))
    | none => .error (.dataAt t.path (.missingKey variantValueKey))
  | _ => .error (.dataAt t.path (.missingKey variantTypeKey))

/-- One event for each field that is not a member. -/
def ignoredFields (t : Ty) (members : List Member) : List Field → List Event
  | [] => []
  | f :: rest =>
    if members.any (·.name == f.key) then ignoredFields t members rest
    else .ignoredField t.path f.key :: ignoredFields t members rest

mutual

def decode (t : Ty) (d : Document) : Attempt Error (Content Ty) :=
  match t with
  | ⟨_, _, _, .bool, _, _⟩ => decodeScalar t d
  | ⟨_, _, _, .integral .., _, _⟩ => decodeScalar t d
  | ⟨_, _, _, .real .., _, _⟩ => decodeScalar t d
  | ⟨_, _, _, .string, _, _⟩ => decodeScalar t d
  | ⟨_, _, _, .enum e, _, _⟩ => decodeItem t e d
  | ⟨_, _, _, .optional none, _, _⟩ =>
    match d with
    | .null => pure (.optional none)
    | _ => Attempt.fail (.schemaAt t.path .notInstantiated)
  | ⟨_, _, _, .optional (some inner), _, _⟩ =>
    match d with
    | .null => pure (.optional none)
    | d => return .optional (some ⟨inner, ← decode inner d⟩)
  | ⟨_, _, _, .variant alternatives, _, _⟩ =>
    match d with
    | .object fields => do
      let (i, inner) ← variantFields t alternatives fields
      return .variant i (← decodeAlternative t alternatives i inner)
    | d => unexpected t .object d
  | ⟨_, _, _, .struct _ members, _, _⟩ =>
    match d with
    | .object fields => do
      Attempt.record (ignoredFields t members fields)
      return .struct (← decodeMembers members fields)
    | d => unexpected t .object d
  | ⟨_, _, _, .array argument, _, _⟩ =>
    match d with
    | .array items =>
      match argument with
      | some element =>
        return .array (← attemptElements (fun i => return ⟨element, ← decode element i⟩) 0 items)
      | none => Attempt.fail (.schemaAt t.path .notInstantiated)
    | d => unexpected t .array d
termination_by structural t

def decodeAlternative (t : Ty) (alternatives : List Ty) (i : Nat) (d : Document) :
    Attempt Error (Node Ty) :=
  match alternatives, i with
  | [], _ => Attempt.fail (.dataAt t.path .variantIndex)
  | a :: _, 0 => return ⟨a, ← decode a d⟩
  | _ :: rest, i + 1 => decodeAlternative t rest i d
termination_by structural alternatives

def decodeMembers (members : List Member) (fields : List Field) : Attempt Error (List (Node Ty)) :=
  match members with
  | [] => pure []
  | ⟨symbol, type, default⟩ :: rest => do
    let node ← Attempt.under (.member symbol.path) (match Field.get? symbol.name fields with
      | some d => return ⟨type, ← decode type d⟩
      | none => Member.defaultNode ⟨symbol, type, default⟩)
    return node :: (← decodeMembers rest fields)
termination_by structural members

end

/-- What reading a document for a type comes to. -/
inductive DecodeCase (t : Ty) : Document → Attempt Error (Content Ty) → Prop where
  | scalar (hs : t.kind ∈ [.bool, .integral, .real, .string]) (d : Document) : DecodeCase t d (decodeScalar t d)
  | item {e : EnumDef} (hs : t.shape = .enum e) (d : Document) : DecodeCase t d (decodeItem t e d)
  | null {argument : Option Ty} (hs : t.shape = .optional argument) : DecodeCase t .null (pure (.optional none))
  | optional {u : Ty} (hs : t.shape = .optional (some u)) {d : Document} (hd : d ≠ .null) :
      DecodeCase t d (do return .optional (some ⟨u, ← decode u d⟩))
  | variant {us : List Ty} (hs : t.shape = .variant us) (fields : List Field) : DecodeCase t (.object fields) (do
      let (i, inner) ← variantFields t us fields
      return .variant i (← decodeAlternative t us i inner))
  | struct {base : Option Ty} {members : List Member} (hs : t.shape = .struct base members) (fields : List Field) :
      DecodeCase t (.object fields) (do
        Attempt.record (ignoredFields t members fields)
        return .struct (← decodeMembers members fields))
  | array {u : Ty} (hs : t.shape = .array (some u)) (ds : List Document) : DecodeCase t (.array ds) (do
      return .array (← attemptElements (fun d => return ⟨u, ← decode u d⟩) 0 ds))
  | uninstantiated (d : Document) : DecodeCase t d (Attempt.fail (.schemaAt t.path .notInstantiated))
  | unexpected (what : Expectation) (d : Document) : DecodeCase t d (unexpected t what d : Except Error (Content Ty))

section

variable {t u : Ty}

theorem decode_scalar (hs : t.kind ∈ [.bool, .integral, .real, .string]) (d : Document) :
    decode t d = liftM (decodeScalar t d) := by
  rcases t with ⟨_, _, _, shape, _, _⟩
  cases shape with
  | bool | integral | real | string => rw [decode]
  | _ => simp [Ty.kind, Shape.kind] at hs

theorem decode_item {e : EnumDef} (hs : t.shape = .enum e) (d : Document) :
    decode t d = liftM (decodeItem t e d) := by
  rcases t with ⟨_, _, _, _, _, _⟩
  cases hs
  rw [decode]

theorem decode_null {argument : Option Ty} (hs : t.shape = .optional argument) :
    decode t .null = pure (.optional none) := by
  rcases t with ⟨_, _, _, _, _, _⟩
  cases hs
  cases argument <;> rw [decode]

theorem decode_optional (hs : t.shape = .optional (some u)) {d : Document} (hd : d ≠ .null) :
    decode t d = (do return .optional (some ⟨u, ← decode u d⟩)) := by
  rcases t with ⟨_, _, _, _, _, _⟩
  cases hs
  cases d with
  | null => exact absurd rfl hd
  | _ => rfl

theorem decode_optional_none (hs : t.shape = .optional none) {d : Document} (hd : d ≠ .null) :
    decode t d = Attempt.fail (.schemaAt t.path .notInstantiated) := by
  rcases t with ⟨_, _, _, _, _, _⟩
  cases hs
  cases d with
  | null => exact absurd rfl hd
  | _ => rfl

theorem decode_variant {us : List Ty} (hs : t.shape = .variant us) (fields : List Field) :
    decode t (.object fields) = (do
      let (i, inner) ← variantFields t us fields
      return .variant i (← decodeAlternative t us i inner)) := by
  rcases t with ⟨_, _, _, _, _, _⟩
  cases hs
  rw [decode]

theorem decode_struct {base : Option Ty} {members : List Member} (hs : t.shape = .struct base members)
    (fields : List Field) : decode t (.object fields) = (do
      Attempt.record (ignoredFields t members fields)
      return .struct (← decodeMembers members fields)) := by
  rcases t with ⟨_, _, _, _, _, _⟩
  cases hs
  rw [decode]

theorem decode_of_not_object (ht : t.kind ∈ [.struct, .variant]) {d : Document} (hd : d.kind ≠ .object) :
    decode t d = liftM (unexpected t .object d : Except Error (Content Ty)) := by
  rcases t with ⟨_, _, _, shape, _, _⟩
  cases shape with
  | struct | variant =>
    cases d with
    | object => exact absurd rfl hd
    | _ => rfl
  | _ => simp [Ty.kind, Shape.kind] at ht

theorem decode_array (hs : t.shape = .array (some u)) (ds : List Document) : decode t (.array ds) =
    (do return .array (← attemptElements (fun d => return ⟨u, ← decode u d⟩) 0 ds)) := by
  rcases t with ⟨_, _, _, _, _, _⟩
  cases hs
  rw [decode]

theorem decode_array_none (hs : t.shape = .array none) (ds : List Document) :
    decode t (.array ds) = Attempt.fail (.schemaAt t.path .notInstantiated) := by
  rcases t with ⟨_, _, _, _, _, _⟩
  cases hs
  rw [decode]

theorem decode_of_not_array {argument : Option Ty} (hs : t.shape = .array argument) {d : Document}
    (hd : d.kind ≠ .array) : decode t d = liftM (unexpected t .array d : Except Error (Content Ty)) := by
  rcases t with ⟨_, _, _, _, _, _⟩
  cases hs
  cases d with
  | array => exact absurd rfl hd
  | _ => rfl

theorem decode_cases (t : Ty) (d : Document) : DecodeCase t d (decode t d) := by
  cases hs : t.shape with
  | bool | integral | real | string =>
    have hkind : t.kind ∈ [.bool, .integral, .real, .string] := by simp [Ty.kind, hs, Shape.kind]
    rw [decode_scalar hkind]
    exact .scalar hkind d
  | enum e =>
    rw [decode_item hs]
    exact .item hs d
  | optional argument =>
    by_cases hd : d = .null
    case pos =>
      rw [hd, decode_null hs]
      exact .null hs
    case neg =>
      cases argument with
      | none =>
        rw [decode_optional_none hs hd]
        exact .uninstantiated d
      | some u =>
        rw [decode_optional hs hd]
        exact .optional hs hd
  | variant us =>
    cases d with
    | object fields =>
      rw [decode_variant hs]
      exact .variant hs fields
    | _ =>
      rw [decode_of_not_object (by simp [Ty.kind, hs, Shape.kind]) (by simp [Document.kind])]
      exact .unexpected .object _
  | struct base members =>
    cases d with
    | object fields =>
      rw [decode_struct hs]
      exact .struct hs fields
    | _ =>
      rw [decode_of_not_object (by simp [Ty.kind, hs, Shape.kind]) (by simp [Document.kind])]
      exact .unexpected .object _
  | array argument =>
    cases d with
    | array ds =>
      cases argument with
      | none =>
        rw [decode_array_none hs]
        exact .uninstantiated _
      | some u =>
        rw [decode_array hs]
        exact .array hs ds
    | _ =>
      rw [decode_of_not_array hs (by simp [Document.kind])]
      exact .unexpected .array _

end

end TypedValues
