import TypedValues.Error

/-!
Placing initializers into member slots. A positional initializer goes to the member after the last
one placed, a named one to the member it names.
-/

namespace TypedValues

variable {σ : Type}

/-- The slot meant by an entry, from its name or from the cursor. -/
def slotIndex (names : List String) (cursor : Nat) : Option String → Except DataCause Nat
  | none => .ok cursor
  | some name =>
    match names.findIdx? (· == name) with
    | some i => .ok i
    | none => .error (.unknownMember name)

def placeAll (names : List String) (slots : List (Option σ)) (cursor : Nat) :
    List (Option String × σ) → Except DataCause (List (Option σ))
  | [] => .ok slots
  | (name, s) :: rest => do
    let i ← slotIndex names cursor name
    match slots[i]? with
    | none => throw (.tooMany names.length)
    | some (some _) => throw (.initializedTwice (names[i]?.getD ""))
    | some none => placeAll names (slots.set i (some s)) (i + 1) rest

def memberSlots (t : Ty) (members : List Member) (entries : List (Option String × σ)) :
    Except Error (List (Option σ)) :=
  match placeAll (members.map (·.name)) (List.replicate members.length none) 0 entries with
  | .ok slots => .ok slots
  | .error cause => .error (.dataAt t.path cause)

end TypedValues
