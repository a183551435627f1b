import TypedValues.Schema.Basic
import TypedValues.Signals

/-!
Live values: trees whose nodes have a type and a signal. A value starts without content, gets its
content once, and is changed in place from then on; the nodes inside it always have content.
-/

namespace TypedValues

structure Cell where
  type : Ty
  signal : SignalId

instance : HasType Cell := ⟨Cell.type⟩

abbrev Value := Holder Cell

/-- Where a node lies in a tree: the positions of the children to go through. -/
abbrev Location := List Nat

def Holder.snapshot {α : Type} [HasType α] (h : Holder α) : Snapshot :=
  ⟨h.type, h.content.map (Content.relabel HasType.type)⟩

namespace Content

variable {α : Type}

def setChild (c : Content α) (i : Nat) (child : Node α) : Content α :=
  match c with
  | optional (some inner) => if i = 0 then optional (some child) else optional (some inner)
  | variant k inner => if i = 0 then variant k child else variant k inner
  | struct members => struct (members.set i child)
  | array elements => array (elements.set i child)
  | c => c

theorem children_setChild (c : Content α) (i : Nat) (n : Node α) :
    (c.setChild i n).children = c.children.set i n := by
  rcases i with _ | i <;> rcases c with _ | _ | _ | _ | _ | (_ | _) | _ | _ | _ <;> rfl

end Content

namespace Node

variable {α : Type}

def get? (n : Node α) : Location → Option (Node α)
  | [] => some n
  | i :: rest =>
    match n.content.children[i]? with
    | some child => child.get? rest
    | none => none

/-- Puts a node in the place of the one at a location; without one there, nothing changes. -/
def set (n : Node α) (location : Location) (new : Node α) : Node α :=
  match location with
  | [] => new
  | i :: rest =>
    match n.content.children[i]? with
    | some child => ⟨n.label, n.content.setChild i (child.set rest new)⟩
    | none => n

theorem get?_set {n old : Node α} {location : Location} (h : n.get? location = some old)
    (new : Node α) : (n.set location new).get? location = some new := by
  induction location generalizing n with
  | nil => rfl
  | cons i rest ih =>
    rw [get?] at h
    split at h
    next child hc =>
      obtain ⟨hi, -⟩ := List.getElem?_eq_some_iff.1 hc
      simp only [set, hc]
      rw [get?, Content.children_setChild, List.getElem?_set_self hi]
      exact ih h
    next => simp at h

end Node

end TypedValues
