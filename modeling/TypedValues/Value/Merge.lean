import TypedValues.Value.Basic

/-!
Merging staged content into a live value. Nodes that the staged content has as well keep their
signals, with all observers; other nodes get new signals under their parents. A node whose content
changed calls its own observers, children before parents.
-/

namespace TypedValues

mutual

def Content.plant (signal : SignalId) (c : Content Ty) (s : Signals) : Content Cell × Signals :=
  match c with
  | .bool b => (.bool b, s)
  | .ints zs => (.ints zs, s)
  | .reals vs => (.reals vs, s)
  | .text t => (.text t, s)
  | .item i => (.item i, s)
  | .optional none => (.optional none, s)
  | .optional (some inner) =>
    let (inner, s) := inner.plant signal s
    (.optional (some inner), s)
  | .variant i inner =>
    let (inner, s) := inner.plant signal s
    (.variant i inner, s)
  | .struct members =>
    let (members, s) := Node.plantAll signal members s
    (.struct members, s)
  | .array elements =>
    let (elements, s) := Node.plantAll signal elements s
    (.array elements, s)

def Node.plant (parent : SignalId) (n : Node Ty) (s : Signals) : Node Cell × Signals :=
  match n with
  | ⟨type, content⟩ =>
    let (signal, s) := s.fresh (some parent)
    let (content, s) := content.plant signal s
    (⟨⟨type, signal⟩, content⟩, s)

def Node.plantAll (parent : SignalId) (ns : List (Node Ty)) (s : Signals) :
    List (Node Cell) × Signals :=
  match ns with
  | [] => ([], s)
  | n :: rest =>
    let (n, s) := n.plant parent s
    let (rest, s) := Node.plantAll parent rest s
    (n :: rest, s)

end

/-- The outcome of a merge: the new tree, whether it differs from the old one, the signals, and the
observers called, in order. -/
structure Merged (τ : Type) where
  tree : τ
  changed : Bool
  signals : Signals
  called : List Observer

namespace Merged

variable {τ υ : Type}

def unchanged (tree : τ) (s : Signals) : Merged τ := ⟨tree, false, s, []⟩

def planted (p : τ × Signals) : Merged τ := ⟨p.1, true, p.2, []⟩

def map (f : τ → υ) (m : Merged τ) : Merged υ := ⟨f m.tree, m.changed, m.signals, m.called⟩

end Merged

mutual

def Content.merge (signal : SignalId) (current : Content Cell) (staged : Content Ty)
    (s : Signals) : Merged (Content Cell) :=
  match staged, current with
  | .bool b, .bool a => ⟨.bool b, a != b, s, []⟩
  | .ints b, .ints a => ⟨.ints b, a != b, s, []⟩
  | .reals b, .reals a => if equalReals a b then .unchanged (.reals a) s else ⟨.reals b, true, s, []⟩
  | .text b, .text a => ⟨.text b, a != b, s, []⟩
  | .item b, .item a => ⟨.item b, a != b, s, []⟩
  | .optional none, .optional none => .unchanged (.optional none) s
  | .optional none, .optional (some _) => ⟨.optional none, true, s, []⟩
  | .optional (some b), .optional none => (Merged.planted (b.plant signal s)).map (.optional ∘ some)
  | .optional (some b), .optional (some a) => (b.mergeInto a s).map (.optional ∘ some)
  | .variant j b, .variant i a =>
    if i = j then (b.mergeInto a s).map (.variant i)
    else (Merged.planted (b.plant signal s)).map (.variant j)
  | .struct bs, .struct as => (Node.mergeMembers bs as s).map .struct
  | .array bs, .array as => (Node.mergeElements signal bs as s).map .array
  | staged, _ => .planted (staged.plant signal s)

/-- Merges a staged node into a child, which calls its observers if it changed. -/
def Node.mergeInto (staged : Node Ty) (current : Node Cell) (s : Signals) : Merged (Node Cell) :=
  match staged, current with
  | ⟨_, content⟩, ⟨cell, old⟩ =>
    let m := Content.merge cell.signal old content s
    let own := if m.changed then m.signals.observers cell.signal else []
    ⟨⟨cell, m.tree⟩, m.changed, m.signals, m.called ++ own⟩

def Node.mergeMembers (staged : List (Node Ty)) (current : List (Node Cell)) (s : Signals) :
    Merged (List (Node Cell)) :=
  match staged, current with
  | b :: bs, a :: as =>
    let m := b.mergeInto a s
    let rest := Node.mergeMembers bs as m.signals
    ⟨m.tree :: rest.tree, m.changed || rest.changed, rest.signals, m.called ++ rest.called⟩
  | _, as => .unchanged as s

/-- Elements in excess are dropped, missing ones are planted under the array's signal. -/
def Node.mergeElements (signal : SignalId) (staged : List (Node Ty)) (current : List (Node Cell))
    (s : Signals) : Merged (List (Node Cell)) :=
  match staged, current with
  | b :: bs, a :: as =>
    let m := b.mergeInto a s
    let rest := Node.mergeElements signal bs as m.signals
    ⟨m.tree :: rest.tree, m.changed || rest.changed, rest.signals, m.called ++ rest.called⟩
  | b :: bs, [] =>
    let (n, s) := b.plant signal s
    let rest := Node.mergeElements signal bs [] s
    ⟨n :: rest.tree, true, rest.signals, rest.called⟩
  | [], as => ⟨[], !as.isEmpty, s, []⟩

end

end TypedValues
