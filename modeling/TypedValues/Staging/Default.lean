import TypedValues.Schema.Attribute

/-!
Default content. Numbers are zero, or the lower bound where zero is out of range; optionals and
arrays are empty; a variant takes its first alternative; members have their declared defaults.
-/

namespace TypedValues

def defaultInt (range : Int × Int) : Int := if range.1 ≤ 0 ∧ 0 ≤ range.2 then 0 else range.1

def defaultReal (kind : RealKind) (range : Real64 × Real64) : Real64 :=
  if Real64.within range.1 range.2 .zero then .zero else kind.quantize range.1

mutual

def defaultContent (t : Ty) : Except Error (Content Ty) :=
  match t with
  | ⟨_, _, _, .bool, _, _⟩ => .ok (.bool false)
  | ⟨_, _, _, .integral _ n, _, _⟩ =>
    .ok (.ints (List.replicate n (defaultInt (t.intRange?.getD (0, 0)))))
  | ⟨_, _, _, .real kind n, _, _⟩ =>
    .ok (.reals (List.replicate n (defaultReal kind (t.realRange?.getD (.zero, .zero)))))
  | ⟨_, _, _, .string, _, _⟩ => .ok (.text "")
  | ⟨_, _, _, .enum d, _, _⟩ =>
    match d.defaultItem with
    | some i => .ok (.item i)
    | none => .error (.dataAt t.path .noDefaultItem)
  | ⟨_, _, _, .optional _, _, _⟩ => .ok (.optional none)
  | ⟨_, _, _, .variant [], _, _⟩ => .error (.schemaAt t.path .notInstantiated)
  | ⟨_, _, _, .variant (first :: _), _, _⟩ =>
    return .variant 0 ⟨first, ← defaultContent first⟩
  | ⟨_, _, _, .struct _ members, _, _⟩ => return .struct (← defaultMembers members)
  | ⟨_, _, _, .array _, _, _⟩ => .ok (.array [])
termination_by structural t

/-- The members in order; an error tells the member it arose under. -/
def defaultMembers (members : List Member) : Except Error (List (Node Ty)) :=
  match members with
  | [] => .ok []
  | ⟨_, _, some declared⟩ :: rest => return declared :: (← defaultMembers rest)
  | ⟨symbol, type, none⟩ :: rest => do
    let content ← underSite (.member symbol.path) (defaultContent type)
    return ⟨type, content⟩ :: (← defaultMembers rest)
termination_by structural members

end

def Member.defaultNode (m : Member) : Except Error (Node Ty) :=
  match m.default with
  | some declared => .ok declared
  | none => return ⟨m.type, ← defaultContent m.type⟩

end TypedValues
