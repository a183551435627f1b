import TypedValues.Proofs.Place

/-! Walks after a change. A walk looks at nothing but what lies above the place it arrives at, and at the
type there; so in another tree that is alike along the way, the same walk leads to the same place. -/

namespace TypedValues

section

variable {α : Type}

theorem Content.setChild_self {c : Content α} {i : Nat} {n : Node α} (h : c.children[i]? = some n) :
    c.setChild i n = c := by
  have only {inner : Node α} (h : [inner][i]? = some n) : inner = n := by
    cases i with
    | zero => exact Option.some.inj h
    | succ i => cases h
  rcases c with _ | _ | _ | _ | _ | (_ | inner) | ⟨j, inner⟩ | ns | ns <;> try rfl
  · obtain rfl := only h
    simp [setChild]
  · obtain rfl := only h
    simp [setChild]
  · obtain ⟨hi, rfl⟩ := List.getElem?_eq_some_iff.1 h
    exact congrArg struct (List.set_getElem_self hi)
  · obtain ⟨hi, rfl⟩ := List.getElem?_eq_some_iff.1 h
    exact congrArg array (List.set_getElem_self hi)

theorem Content.kind_setChild (c : Content α) (i : Nat) (n : Node α) : (c.setChild i n).kind = c.kind := by
  rcases i with _ | i <;> rcases c with _ | _ | _ | _ | _ | (_ | _) | _ | _ | _ <;> rfl

namespace Node

variable {n old new : Node α} {location : Location}

theorem set_get? (h : n.get? location = some old) : n.set location old = n := by
  induction location generalizing n with
  | nil => cases h; rfl
  | cons i rest ih =>
    obtain ⟨child, hchild, h⟩ := get?_cons_eq_some.1 h
    rw [set_cons hchild, ih h, Content.setChild_self hchild]
    rcases n with ⟨label, content⟩
    rfl

theorem set_append (h : n.get? location = some old) (below : Location) (new : Node α) :
    n.set (location ++ below) new = n.set location (old.set below new) := by
  induction location generalizing n with
  | nil => cases h; rfl
  | cons i rest ih =>
    obtain ⟨child, hchild, h⟩ := get?_cons_eq_some.1 h
    rw [List.cons_append, set_cons hchild, set_cons hchild, ih h]

theorem label_set (h : n.get? location = some old) (hlabel : new.label = old.label) :
    (n.set location new).label = n.label := by
  cases location with
  | nil => cases h; exact hlabel
  | cons i rest =>
    obtain ⟨child, hchild, -⟩ := get?_cons_eq_some.1 h
    rw [set_cons hchild]

theorem holder_inj {n m : Node α} (h : n.holder = m.holder) : n = m := by
  rcases n with ⟨a, c⟩
  rcases m with ⟨b, d⟩
  cases h
  rfl

theorem get?_of_part? (h : n.holder.part? location = some old.holder) : n.get? location = some old := by
  rw [part?_holder] at h
  obtain ⟨m, hm, heq⟩ := Option.map_eq_some_iff.1 h
  exact hm.trans (congrArg some (holder_inj heq))

end Node

end

section

variable {α : Type}

/-- The trees are alike on the way down to a location: the nodes there and above it have the same labels, and
those above it hold content of one kind. -/
inductive Node.Along : Node α → Location → Node α → Prop where
  | nil {n m : Node α} (label : m.label = n.label) : Along n [] m
  | cons {n m a b : Node α} {i : Nat} {rest : Location} (label : m.label = n.label)
      (kind : m.content.kind = n.content.kind) (left : n.content.children[i]? = some a)
      (right : m.content.children[i]? = some b) (further : Along a rest b) : Along n (i :: rest) m

namespace Node

variable {n m a b old new : Node α} {location below other : Location}

theorem Along.label (h : n.Along location m) : m.label = n.label := by cases h <;> assumption

theorem Along.split (h : n.Along (location ++ below) m) : ∃ a b, n.get? location = some a ∧
    m.get? location = some b ∧ n.Along location m ∧ a.Along below b := by
  induction location generalizing n m with
  | nil => exact ⟨n, m, rfl, rfl, .nil h.label, h⟩
  | cons i rest ih =>
    cases h with
    | cons label kind left right further =>
      obtain ⟨a, b, ha, hb, hfirst, hlast⟩ := ih further
      refine ⟨a, b, ?_, ?_, .cons label kind left right hfirst, hlast⟩
      · rw [get?_cons, left]
        exact ha
      · rw [get?_cons, right]
        exact hb

theorem Along.child {i : Nat} (h : n.Along [i] m) (hb : m.get? [i] = some b) :
    m.content.kind = n.content.kind ∧ m.content.children[i]? = some b := by
  cases h with
  | cons label kind left right further =>
    rw [get?_cons, right] at hb
    obtain rfl : _ = b := Option.some.inj hb
    exact ⟨kind, right⟩

theorem along_set (h : n.get? location = some old) (hlabel : new.label = old.label) :
    n.Along location (n.set location new) := by
  induction location generalizing n with
  | nil => cases h; exact .nil hlabel
  | cons i rest ih =>
    obtain ⟨child, hchild, h⟩ := get?_cons_eq_some.1 h
    obtain ⟨hi, -⟩ := List.getElem?_eq_some_iff.1 hchild
    rw [set_cons hchild]
    refine .cons rfl (Content.kind_setChild _ _ _) hchild ?_ (ih h)
    rw [Content.children_setChild, List.getElem?_set_self hi]

end Node

end

variable {α : Type} [HasType α]

/-- A step that leads to a place leads there in a tree that is alike on the way. -/
theorem stepFrom_along {t : Ty} {c : Content α} {s : Step} {location : Location} {a : Node α}
    (hstep : stepFrom t c s = .ok a) (hslot : slotFrom? t c s = some (location, a)) {label label' : α}
    {d : Content α} {b : Node α} (h : (⟨label, c⟩ : Node α).Along location ⟨label', d⟩)
    (hb : (⟨label', d⟩ : Node α).get? location = some b) :
    stepFrom t d s = .ok b ∧ slotFrom? t d s = some (location, b) := by
  fun_induction stepFrom t c s generalizing location label label' d with
  | case1 t inner content s ih =>
    rw [slotFrom?] at hslot
    obtain ⟨⟨below, x⟩, hbelow, heq⟩ := Option.map_eq_some_iff.1 hslot
    cases heq
    cases h with
    | cons hlabel hkind left right further =>
      cases left
      rcases d with _ | _ | _ | _ | _ | (_ | ⟨inner', content'⟩) | _ | _ | _ <;> cases hkind <;> cases right
      obtain rfl : inner' = inner := further.label
      rw [Node.get?_cons] at hb
      obtain ⟨hstep', hslot'⟩ := ih hstep hbelow further hb
      rw [stepFrom, slotFrom?, hslot']
      exact ⟨hstep', rfl⟩
  | case3 t members name node hfound =>
    obtain ⟨i, hi, hnode⟩ := Option.bind_eq_some_iff.1 hfound
    rw [slotFrom?, hi] at hslot
    simp only [hnode] at hslot
    cases hslot
    obtain ⟨hkind, hchild⟩ := h.child hb
    rcases d with _ | _ | _ | _ | _ | _ | _ | members' | _ <;> cases hkind
    have hchild : members'[i]? = some b := hchild
    simp [stepFrom, slotFrom?, hi, hchild]
  | case5 t elements i node hfound =>
    rw [slotFrom?, hfound] at hslot
    cases hslot
    obtain ⟨hkind, hchild⟩ := h.child hb
    rcases d with _ | _ | _ | _ | _ | _ | _ | _ | elements' <;> cases hkind
    have hchild : elements'[i]? = some b := hchild
    simp [stepFrom, slotFrom?, hchild]
  | case7 t j inner type hcompat =>
    cases hslot
    cases h with
    | cons hlabel hkind left right further =>
      cases left
      rcases d with _ | _ | _ | _ | _ | _ | ⟨k, inner'⟩ | _ | _ <;> cases hkind
      cases right
      cases hb
      have htype : b.type = a.type := congrArg HasType.type further.label
      rw [stepFrom, htype]
      exact ⟨if_pos hcompat, rfl⟩
  | _ => cases hstep

theorem Node.Along.type {n m : Node α} {location : Location} (h : n.Along location m) :
    m.holder.type = n.holder.type := congrArg HasType.type h.label

namespace Holder

variable {n m a b new : Node α} {location : Location} {p : Policy}

theorem constructed_holder (n : Node α) : n.holder.constructed = pure n.content := rfl

theorem slot_eq_ok {s : Step} : ((n.holder.slot s).run p).outcome = .ok (location, a) ↔
    stepFrom n.holder.type n.content s = .ok a ∧ slotFrom? n.holder.type n.content s = some (location, a) := by
  rw [slot, constructed_holder, pure_bind, Attempt.bind_eq_ok]
  simp only [Attempt.run_ofExcept, Attempt.ofExcept_eq_ok]
  constructor
  · rintro ⟨x, hx, h⟩
    obtain ⟨found, hfound⟩ := slotFrom?_of_stepFrom hx
    rw [hfound] at h
    cases h
    exact ⟨hx, hfound⟩
  · rintro ⟨hstep, hslot⟩
    exact ⟨a, hstep, by rw [hslot]; rfl⟩

theorem slot_along {s : Step} (h : ((n.holder.slot s).run p).outcome = .ok (location, a))
    (hm : n.Along location m) (hb : m.get? location = some b) :
    ((m.holder.slot s).run p).outcome = .ok (location, b) := by
  rw [slot_eq_ok] at h ⊢
  rw [hm.type]
  rcases n with ⟨label, c⟩
  rcases m with ⟨label', d⟩
  exact stepFrom_along h.1 h.2 hm hb

/-- A selector that leads to a place leads there in a tree that is alike on the way. -/
theorem locate_along {s : Selector} (h : ((n.holder.locate s).run p).outcome = .ok (location, a.holder))
    (hm : n.Along location m) (hb : m.get? location = some b) :
    ((m.holder.locate s).run p).outcome = .ok (location, b.holder) := by
  induction s generalizing n m location with
  | nil =>
    obtain ⟨rfl, -⟩ := Prod.mk.inj (Outcome.ok.inj h)
    cases hb
    rfl
  | cons step rest ih =>
    rw [locate, Attempt.bind_eq_ok] at h
    obtain ⟨⟨first, node⟩, hslot, h⟩ := h
    obtain ⟨⟨below, found⟩, hrest, h⟩ := Attempt.bind_eq_ok.1 h
    cases h
    obtain ⟨x, y, hx, hy, hfirst, hbelow⟩ := hm.split
    have hnode : n.get? first = some node := by
      rcases n with ⟨label, c⟩
      exact slotFrom?_get? (slot_eq_ok.1 hslot).2 label
    obtain rfl : x = node := Option.some.inj (hx.symm.trans hnode)
    rw [Node.get?_append, hy] at hb
    rw [locate, Attempt.bind_eq_ok]
    exact ⟨_, slot_along hslot hfirst hy, Attempt.bind_eq_ok.2 ⟨_, ih hrest hbelow hb, rfl⟩⟩

theorem member_along {i : Nat} (h : ((n.holder.member i).run p).outcome = .ok a) (hm : n.Along [i] m)
    (hb : m.get? [i] = some b) : ((m.holder.member i).run p).outcome = .ok b := by
  obtain ⟨hkind, hchild⟩ := hm.child hb
  obtain ⟨ms, hms, -⟩ := Attempt.bind_eq_ok.1 h
  rcases n with ⟨label, c⟩
  rcases m with ⟨label', d⟩
  rw [members, constructed_holder, pure_bind] at hms
  rcases c with _ | _ | _ | _ | _ | _ | _ | _ | _ <;> try exact absurd hms Attempt.not_fail_ok
  rcases d with _ | _ | _ | _ | _ | _ | _ | ms' | _ <;> cases hkind
  rw [member, Attempt.bind_eq_ok]
  refine ⟨ms', rfl, ?_⟩
  have hchild : ms'[i]? = some b := hchild
  rw [hchild]
  rfl

theorem element_along {i : Nat} (h : ((n.holder.element i).run p).outcome = .ok a) (hm : n.Along [i] m)
    (hb : m.get? [i] = some b) : ((m.holder.element i).run p).outcome = .ok b := by
  obtain ⟨hkind, hchild⟩ := hm.child hb
  obtain ⟨es, hes, -⟩ := Attempt.bind_eq_ok.1 h
  rcases n with ⟨label, c⟩
  rcases m with ⟨label', d⟩
  rw [elements, constructed_holder, pure_bind] at hes
  rcases c with _ | _ | _ | _ | _ | _ | _ | _ | _ <;> try exact absurd hes Attempt.not_fail_ok
  rcases d with _ | _ | _ | _ | _ | _ | _ | _ | es' <;> cases hkind
  rw [element, Attempt.bind_eq_ok]
  refine ⟨es', rfl, ?_⟩
  have hchild : es'[i]? = some b := hchild
  rw [hchild]
  rfl

theorem optionalValue_along (h : (n.holder.optionalValue.run p).outcome = .ok (some a)) (hm : n.Along [0] m)
    (hb : m.get? [0] = some b) : (m.holder.optionalValue.run p).outcome = .ok (some b) := by
  obtain ⟨hkind, hchild⟩ := hm.child hb
  rcases n with ⟨label, c⟩
  rcases m with ⟨label', d⟩
  rw [optionalValue, constructed_holder, pure_bind] at h ⊢
  rcases c with _ | _ | _ | _ | _ | _ | _ | _ | _ <;> try exact absurd h Attempt.not_fail_ok
  rcases d with _ | _ | _ | _ | _ | (_ | _) | _ | _ | _ <;> cases hkind <;> cases hchild
  rfl

theorem variantValue_along (h : (n.holder.variantValue.run p).outcome = .ok a) (hm : n.Along [0] m)
    (hb : m.get? [0] = some b) : (m.holder.variantValue.run p).outcome = .ok b := by
  obtain ⟨hkind, hchild⟩ := hm.child hb
  rcases n with ⟨label, c⟩
  rcases m with ⟨label', d⟩
  rw [variantValue, constructed_holder, pure_bind] at h ⊢
  rcases c with _ | _ | _ | _ | _ | _ | _ | _ | _ <;> try exact absurd h Attempt.not_fail_ok
  rcases d with _ | _ | _ | _ | _ | _ | ⟨j, inner⟩ | _ | _ <;> cases hkind
  cases hchild
  rfl

theorem reach_along {access : Access} (h : ((n.holder.reach access).run p).outcome = .ok (location, a.holder))
    (hm : n.Along location m) (hb : m.get? location = some b) :
    ((m.holder.reach access).run p).outcome = .ok (location, b.holder) := by
  have stray {β : Type} {x : Attempt Error β} {c : β} :
      (x.toStray.run p).outcome = .ok c ↔ (x.run p).outcome = .ok c := Result.mapError_eq_ok
  cases access with
  | select s => exact stray.2 (locate_along (stray.1 h) hm hb)
  | selectKind s kind =>
    obtain ⟨⟨found, x⟩, hlocate, h⟩ := Attempt.bind_eq_ok.1 (stray.1 h)
    obtain ⟨_, hkind, h⟩ := Attempt.bind_eq_ok.1 h
    cases h
    refine stray.2 (Attempt.bind_eq_ok.2 ⟨_, locate_along hlocate hm hb, Attempt.bind_eq_ok.2 ⟨(), ?_, rfl⟩⟩)
    -- the kind found is that of the type, which is the same in both trees
    rw [← List.append_nil location] at hm
    obtain ⟨x, y, hx, hy, -, hend⟩ := hm.split
    obtain rfl : x = a := Option.some.inj
      (hx.symm.trans (Node.get?_of_part? (locate_ensures _ _ _ _ hlocate)))
    obtain rfl : y = b := Option.some.inj (hy.symm.trans hb)
    rw [checkKind] at hkind ⊢
    rw [hend.type]
    split at hkind
    next hsame => rw [if_pos hsame]; rfl
    next => exact absurd hkind Attempt.not_fail_ok
  | member i =>
    obtain ⟨node, hmember, h⟩ := Attempt.bind_eq_ok.1 h
    obtain ⟨rfl, -⟩ := Prod.mk.inj (Outcome.ok.inj h)
    exact Attempt.bind_eq_ok.2 ⟨b, stray.2 (member_along (stray.1 hmember) hm hb), rfl⟩
  | name name =>
    obtain ⟨i, hindex, h⟩ := Attempt.bind_eq_ok.1 h
    obtain ⟨node, hmember, h⟩ := Attempt.bind_eq_ok.1 h
    obtain ⟨rfl, -⟩ := Prod.mk.inj (Outcome.ok.inj h)
    refine Attempt.bind_eq_ok.2 ⟨i, ?_, Attempt.bind_eq_ok.2
      ⟨b, stray.2 (member_along (stray.1 hmember) hm hb), rfl⟩⟩
    simp only [memberIndex, unsupported, refuse, hm.type] at hindex ⊢
    exact hindex
  | optional =>
    obtain ⟨inner, hinner, h⟩ := Attempt.bind_eq_ok.1 h
    cases inner with
    | none => exact absurd h Attempt.not_fail_ok
    | some node =>
      obtain ⟨rfl, -⟩ := Prod.mk.inj (Outcome.ok.inj h)
      exact Attempt.bind_eq_ok.2 ⟨some b, stray.2 (optionalValue_along (stray.1 hinner) hm hb), rfl⟩
  | variant =>
    obtain ⟨node, hvalue, h⟩ := Attempt.bind_eq_ok.1 h
    obtain ⟨rfl, -⟩ := Prod.mk.inj (Outcome.ok.inj h)
    exact Attempt.bind_eq_ok.2 ⟨b, stray.2 (variantValue_along (stray.1 hvalue) hm hb), rfl⟩
  | element i =>
    obtain ⟨node, helement, h⟩ := Attempt.bind_eq_ok.1 h
    obtain ⟨rfl, -⟩ := Prod.mk.inj (Outcome.ok.inj h)
    exact Attempt.bind_eq_ok.2 ⟨b, stray.2 (element_along (stray.1 helement) hm hb), rfl⟩

/-- A walk that arrives at a place arrives there in a tree that is alike on the way. -/
theorem reachAll_along {walk : List Access}
    (h : ((n.holder.reachAll walk).run p).outcome = .ok (location, a.holder)) (hm : n.Along location m)
    (hb : m.get? location = some b) :
    ((m.holder.reachAll walk).run p).outcome = .ok (location, b.holder) := by
  induction walk generalizing n m location with
  | nil =>
    obtain ⟨rfl, -⟩ := Prod.mk.inj (Outcome.ok.inj h)
    cases hb
    rfl
  | cons access rest ih =>
    rw [reachAll, Attempt.bind_eq_ok] at h
    obtain ⟨⟨first, x⟩, hreach, h⟩ := h
    obtain ⟨⟨below, found⟩, hrest, h⟩ := Attempt.bind_eq_ok.1 h
    cases h
    -- the walk goes on from a node, not from a value without content
    obtain ⟨node, rfl⟩ : ∃ node : Node α, x = node.holder := by
      rcases part?_cases (reach_ensures _ _ _ _ hreach) with ⟨-, rfl, hnone⟩ | ⟨_, node, -, hx, -⟩
      · cases hnone
      · exact ⟨node, hx⟩
    obtain ⟨x, y, hx, hy, hfirst, hbelow⟩ := hm.split
    obtain rfl : x = node := Option.some.inj
      (hx.symm.trans (Node.get?_of_part? (reach_ensures _ _ _ _ hreach)))
    rw [Node.get?_append, hy] at hb
    rw [reachAll, Attempt.bind_eq_ok]
    exact ⟨_, reach_along hreach hfirst hy, Attempt.bind_eq_ok.2 ⟨_, ih hrest hbelow hb, rfl⟩⟩

/-- A walk that arrived at a node arrives at the one in its place. -/
theorem reachAll_set {walk : List Access}
    (h : ((n.holder.reachAll walk).run p).outcome = .ok (location, m.holder)) (hlabel : new.label = m.label) :
    (((n.set location new).holder.reachAll walk).run p).outcome = .ok (location, new.holder) := by
  have hget := Node.get?_of_part? (reachAll_ensures _ _ _ _ h)
  exact reachAll_along h (Node.along_set hget hlabel) (Node.get?_set hget new)

end Holder

end TypedValues
