import TypedValues.Staging.Default
import TypedValues.Staging.Slots

/-!
Staging from literals. Numbers are checked against the range of the type they are staged for; a
variant takes the first of its alternatives that accepts the literal.
-/

namespace TypedValues

def intComponent (t : Ty) (l : Literal) : Except Error Int :=
  match l with
  | .int z =>
    match t.intRange? with
    | some (lo, hi) =>
      if lo ≤ z ∧ z ≤ hi then .ok z else .error (.dataAt t.path (.intOutside z lo hi))
    | none => .ok z
  | l => .error (.incompatible t.path (.literalKind l.kind))

/-- The range is checked before the number is rounded to its kind. -/
def realComponent (t : Ty) (kind : RealKind) (l : Literal) : Except Error Real64 :=
  match l.asReal? with
  | none => .error (.incompatible t.path (.literalKind l.kind))
  | some v =>
    if !v.isFinite then .error (.dataAt t.path (.notFinite v))
    else match t.realRange? with
      | some (lo, hi) =>
        if v.lt lo || hi.lt v then .error (.dataAt t.path (.realOutside v lo hi))
        else .ok (kind.quantize v)
      | none => .ok (kind.quantize v)

/-- A scalar is a literal of its own, a vector a list of as many literals as it has components. -/
def componentsOf {α : Type} (t : Ty) (n : Nat) (component : Literal → Except Error α)
    (l : Literal) : Except Error (List α) :=
  if n = 1 then return [← component l]
  else match l with
    | .list items =>
      if items.length = n then items.mapM component
      else .error (.dataAt t.path (.components n l))
    | l => .error (.dataAt t.path (.components n l))

def stageElements {σ α : Type} (stage : σ → Except Error α) (i : Nat) :
    List σ → Except Error (List α)
  | [] => .ok []
  | s :: rest => do
    let a ← underSite (.element i) (stage s)
    return a :: (← stageElements stage (i + 1) rest)

mutual

def stageLiteral (t : Ty) (l : Literal) : Except Error (Content Ty) :=
  match t with
  | ⟨_, _, _, .bool, _, _⟩ =>
    match l with
    | .bool b => .ok (.bool b)
    | l => .error (.incompatible t.path (.literalKind l.kind))
  | ⟨_, _, _, .integral _ n, _, _⟩ => return .ints (← componentsOf t n (intComponent t) l)
  | ⟨_, _, _, .real kind n, _, _⟩ => return .reals (← componentsOf t n (realComponent t kind) l)
  | ⟨_, _, _, .string, _, _⟩ =>
    match l with
    | .text s => .ok (.text s)
    | l => .error (.incompatible t.path (.literalKind l.kind))
  | ⟨_, _, _, .enum _, _, _⟩ => .error (.dataAt t.path (.needsItem l))
  | ⟨_, _, _, .optional none, _, _⟩ =>
    match l with
    | .null => .ok (.optional none)
    | l => .error (.incompatible t.path (.literalKind l.kind))
  | ⟨_, _, _, .optional (some inner), _, _⟩ =>
    match l with
    | .null => .ok (.optional none)
    | l => return .optional (some ⟨inner, ← stageLiteral inner l⟩)
  | ⟨_, _, _, .variant alternatives, _, _⟩ =>
    match stageAlternativeLiteral alternatives 0 l with
    | some content => .ok content
    | none => .error (.dataAt t.path (.noAlternativeFor l))
  | ⟨_, _, _, .struct _ members, _, _⟩ =>
    match l with
    | .list items => do
      let slots ← memberSlots t members (items.map fun i => (none, i))
      return .struct (← stageMemberLiterals members slots)
    | l => .error (.incompatible t.path (.literalKind l.kind))
  | ⟨_, _, _, .array none, _, _⟩ => .error (.incompatible t.path (.literalKind l.kind))
  | ⟨_, _, _, .array (some element), _, _⟩ =>
    match l with
    | .list items =>
      return .array (← stageElements (fun i => return ⟨element, ← stageLiteral element i⟩) 0 items)
    | l => .error (.incompatible t.path (.literalKind l.kind))
termination_by structural t

def stageAlternativeLiteral (alternatives : List Ty) (i : Nat) (l : Literal) :
    Option (Content Ty) :=
  match alternatives with
  | [] => none
  | t :: rest =>
    match stageLiteral t l with
    | .ok content => some (.variant i ⟨t, content⟩)
    | .error _ => stageAlternativeLiteral rest (i + 1) l
termination_by structural alternatives

def stageMemberLiterals (members : List Member) (slots : List (Option Literal)) :
    Except Error (List (Node Ty)) :=
  match members with
  | [] => .ok []
  | ⟨symbol, type, default⟩ :: rest => do
    let node ← underSite (.member symbol.path) (match slots.head?.join with
      | some l => return ⟨type, ← stageLiteral type l⟩
      | none => Member.defaultNode ⟨symbol, type, default⟩)
    return node :: (← stageMemberLiterals rest slots.tail)
termination_by structural members

end

section

variable {t u : Ty}

theorem stageLiteral_integral {kind : IntKind} {n : Nat} (hs : t.shape = .integral kind n) (l : Literal) :
    stageLiteral t l = (do return .ints (← componentsOf t n (intComponent t) l)) := by
  rcases t with ⟨_, _, _, _, _, _⟩
  cases hs
  rw [stageLiteral]

theorem stageLiteral_real {kind : RealKind} {n : Nat} (hs : t.shape = .real kind n) (l : Literal) :
    stageLiteral t l = (do return .reals (← componentsOf t n (realComponent t kind) l)) := by
  rcases t with ⟨_, _, _, _, _, _⟩
  cases hs
  rw [stageLiteral]

theorem stageLiteral_null {argument : Option Ty} (hs : t.shape = .optional argument) :
    stageLiteral t .null = .ok (.optional none) := by
  rcases t with ⟨_, _, _, _, _, _⟩
  cases hs
  cases argument <;> rw [stageLiteral]

theorem stageLiteral_optional (hs : t.shape = .optional (some u)) {l : Literal} (hl : l ≠ .null) :
    stageLiteral t l = (do return .optional (some ⟨u, ← stageLiteral u l⟩)) := by
  rcases t with ⟨_, _, _, _, _, _⟩
  cases hs
  cases l with
  | null => exact absurd rfl hl
  | _ => rfl

theorem stageLiteral_variant {us : List Ty} (hs : t.shape = .variant us) (l : Literal) :
    stageLiteral t l = match stageAlternativeLiteral us 0 l with
      | some content => .ok content
      | none => .error (.dataAt t.path (.noAlternativeFor l)) := by
  rcases t with ⟨_, _, _, _, _, _⟩
  cases hs
  rw [stageLiteral]

theorem stageLiteral_struct {base : Option Ty} {members : List Member} (hs : t.shape = .struct base members)
    (ls : List Literal) : stageLiteral t (.list ls) = (do
      let slots ← memberSlots t members (ls.map fun l => (none, l))
      return .struct (← stageMemberLiterals members slots)) := by
  rcases t with ⟨_, _, _, _, _, _⟩
  cases hs
  rw [stageLiteral]

theorem stageLiteral_array (hs : t.shape = .array (some u)) (ls : List Literal) :
    stageLiteral t (.list ls) =
      (do return .array (← stageElements (fun l => return ⟨u, ← stageLiteral u l⟩) 0 ls)) := by
  rcases t with ⟨_, _, _, _, _, _⟩
  cases hs
  rw [stageLiteral]

end

end TypedValues
