import TypedValues.Proofs.Change
import TypedValues.Proofs.Signals
import TypedValues.Value.Select

/-! Places in a tree. A walk that arrives gives the location of what it arrives at. Putting a node in
the place of another changes the labels of the tree there and nowhere else, and keeps the tree linked
and typed if the node fits its place. -/

namespace TypedValues

/-- The part of a value at a location; the value itself need not be constructed. -/
def Holder.part? {α : Type} (h : Holder α) (location : Location) : Option (Holder α) :=
  match h.content, location with
  | _, [] => some h
  | none, _ => none
  | some c, location => ((⟨h.label, c⟩ : Node α).get? location).map Node.holder

section

variable {α : Type}

theorem Node.get?_cons (n : Node α) (i : Nat) (rest : Location) :
    n.get? (i :: rest) = n.content.children[i]?.bind (·.get? rest) := by
  rw [get?]; cases n.content.children[i]? <;> rfl

theorem Node.get?_cons_eq_some {n a : Node α} {i : Nat} {rest : Location} : n.get? (i :: rest) = some a ↔
    ∃ child, n.content.children[i]? = some child ∧ child.get? rest = some a := by
  rw [get?_cons, Option.bind_eq_some_iff]

theorem Node.get?_append (n : Node α) (location below : Location) :
    n.get? (location ++ below) = (n.get? location).bind (·.get? below) := by
  induction location generalizing n with
  | nil => rfl
  | cons i rest ih =>
    rw [List.cons_append, get?_cons, get?_cons, Option.bind_assoc]
    exact Option.bind_congr fun child _ => ih child

theorem Node.get?_relabel {β : Type} (f : α → β) (n : Node α) (location : Location) :
    (n.relabel f).get? location = (n.get? location).map (Node.relabel f) := by
  induction location generalizing n with
  | nil => rfl
  | cons i rest ih =>
    rw [get?_cons, get?_cons, content_relabel, Content.children_relabel, List.getElem?_map, Option.bind_map,
      Option.map_bind]
    exact Option.bind_congr fun child _ => ih child

@[simp] theorem Holder.part?_nil (h : Holder α) : h.part? [] = some h := by
  unfold part?; split <;> simp_all

theorem Node.part?_holder (n : Node α) (location : Location) :
    n.holder.part? location = (n.get? location).map Node.holder := by
  rcases n with ⟨label, content⟩
  cases location with
  | nil => rfl
  | cons i rest => rfl

theorem Holder.eq_holder {h : Holder α} {c : Content α} (hc : h.content = some c) :
    h = (⟨h.label, c⟩ : Node α).holder := by
  rcases h with ⟨label, content⟩; cases hc; rfl

/-- A part is either the value itself, without content, or a node of its tree. -/
theorem Holder.part?_cases {h x : Holder α} {location : Location} (hx : h.part? location = some x) :
    (location = [] ∧ x = h ∧ h.content = none) ∨
      ∃ n m : Node α, h = n.holder ∧ x = m.holder ∧ n.get? location = some m := by
  rcases h with ⟨label, _ | c⟩
  · cases location with
    | nil => cases hx; exact .inl ⟨rfl, rfl, rfl⟩
    | cons i rest => cases hx
  · refine .inr ⟨⟨label, c⟩, ?_⟩
    rw [show (⟨label, some c⟩ : Holder α) = (Node.mk label c).holder from rfl,
      Node.part?_holder] at hx
    obtain ⟨m, hm, rfl⟩ := Option.map_eq_some_iff.1 hx
    exact ⟨m, rfl, rfl, hm⟩

theorem Holder.part?_append {h x : Holder α} {location below : Location}
    (hx : h.part? location = some x) : h.part? (location ++ below) = x.part? below := by
  rcases part?_cases hx with ⟨rfl, rfl, -⟩ | ⟨n, m, rfl, rfl, hm⟩
  · rfl
  · rw [Node.part?_holder, Node.part?_holder, Node.get?_append, hm]
    rfl

theorem Holder.part?_child {h : Holder α} {c : Content α} (hc : h.content = some c) {i : Nat}
    {n : Node α} (hn : c.children[i]? = some n) : h.part? [i] = some n.holder := by
  rw [eq_holder hc, Node.part?_holder, Node.get?_cons, hn]; rfl

end

section

variable {α : Type} [HasType α]

theorem slotFrom?_get? {t : Ty} {c : Content α} {s : Step} {location : Location} {n : Node α}
    (h : slotFrom? t c s = some (location, n)) (label : α) :
    (⟨label, c⟩ : Node α).get? location = some n := by
  have child {c : Content α} {i : Nat} (hi : c.children[i]? = some n) (label : α) :
      (⟨label, c⟩ : Node α).get? [i] = some n := by
    rw [Node.get?_cons, hi]; rfl
  fun_induction slotFrom? t c s generalizing location label with
  | case1 t label content s ih =>
    obtain ⟨⟨below, m⟩, hm, heq⟩ := Option.map_eq_some_iff.1 h
    cases heq
    rw [Node.get?_cons]
    exact ih hm _
  | case2 t members name i hi =>
    obtain ⟨m, hm, heq⟩ := Option.map_eq_some_iff.1 h
    cases heq
    exact child hm label
  | case3 => cases h
  | case4 t elements i =>
    obtain ⟨m, hm, heq⟩ := Option.map_eq_some_iff.1 h
    cases heq
    exact child hm label
  | case5 => cases h; exact child rfl label
  | case6 => cases h

/-- The slot of a step that leads somewhere is where it leads. -/
theorem slotFrom?_of_stepFrom {t : Ty} {c : Content α} {s : Step} {n : Node α}
    (h : stepFrom t c s = .ok n) : ∃ location, slotFrom? t c s = some (location, n) := by
  fun_induction stepFrom t c s with
  | case1 t label content s ih =>
    obtain ⟨location, hslot⟩ := ih h
    exact ⟨0 :: location, by rw [slotFrom?, hslot]; rfl⟩
  | case3 t members name node hfound =>
    cases h
    obtain ⟨i, hi, hnode⟩ := Option.bind_eq_some_iff.1 hfound
    exact ⟨[i], by rw [slotFrom?, hi]; simp only; rw [hnode]; rfl⟩
  | case5 t elements i node hfound =>
    cases h
    exact ⟨[i], by rw [slotFrom?, hfound]; rfl⟩
  | case7 => cases h; exact ⟨[0], rfl⟩
  | _ => cases h

namespace Holder

theorem locate_ensures (h : Holder α) (s : Selector) :
    (h.locate s).Ensures fun p => h.part? p.1 = some p.2 := by
  induction s generalizing h with
  | nil => exact Attempt.ensures_pure h.part?_nil
  | cons step rest ih =>
    have slot : (h.slot step).Ensures fun p => h.part? p.1 = some p.2.holder := by
      refine h.constructed_ensures.bind fun c hc => (Attempt.ensures_true _).bind fun _ _ => ?_
      split
      next found hfound =>
        refine Attempt.ensures_pure ?_
        rw [eq_holder hc, Node.part?_holder, slotFrom?_get? hfound]
        rfl
      next => exact Attempt.ensures_fail _
    refine slot.bind fun p hp => (ih p.2.holder).bind fun q hq => Attempt.ensures_pure ?_
    rw [part?_append hp, hq]

theorem member_ensures (h : Holder α) (i : Nat) :
    (h.member i).Ensures fun n => h.part? [i] = some n.holder := by
  refine Attempt.Ensures.bind (P := fun ms => h.content = some (.struct ms))
    (h.constructed_ensures.bind ?_) ?_
  · intro c hc
    split
    next => exact Attempt.ensures_pure hc
    next => exact Attempt.ensures_fail _
  · intro ms hms
    split
    next n hn => exact Attempt.ensures_pure (part?_child hms hn)
    next => exact Attempt.ensures_fail _

theorem element_ensures (h : Holder α) (i : Nat) :
    (h.element i).Ensures fun n => h.part? [i] = some n.holder := by
  refine h.elements_ensures.bind fun es hes => ?_
  split
  next n hn => exact Attempt.ensures_pure (part?_child hes hn)
  next => exact Attempt.ensures_fail _

theorem optionalValue_ensures (h : Holder α) :
    h.optionalValue.Ensures fun inner => ∀ n, inner = some n → h.part? [0] = some n.holder := by
  refine h.constructed_ensures.bind fun c hc => ?_
  split
  next inner =>
    refine Attempt.ensures_pure ?_
    rintro n rfl
    exact part?_child hc rfl
  next => exact Attempt.ensures_fail _

theorem variantValue_ensures (h : Holder α) :
    h.variantValue.Ensures fun n => h.part? [0] = some n.holder := by
  refine h.constructed_ensures.bind fun c hc => ?_
  split
  next => exact Attempt.ensures_pure (part?_child hc rfl)
  next => exact Attempt.ensures_fail _

theorem reach_ensures (h : Holder α) (a : Access) :
    (h.reach a).Ensures fun p => h.part? p.1 = some p.2 := by
  cases a with
  | select s => exact (h.locate_ensures s).mapError _
  | selectKind s kind =>
    refine ((h.locate_ensures s).bind fun p hp => ?_).mapError _
    exact (Attempt.ensures_true _).bind fun _ _ => Attempt.ensures_pure hp
  | member i => exact ((h.member_ensures i).mapError _).bind fun n hn => Attempt.ensures_pure hn
  | name n =>
    exact (Attempt.ensures_true _).bind fun i _ =>
      ((h.member_ensures i).mapError _).bind fun n hn => Attempt.ensures_pure hn
  | optional =>
    refine (h.optionalValue_ensures.mapError _).bind fun inner hinner => ?_
    split
    next n => exact Attempt.ensures_pure (hinner n rfl)
    next => exact Attempt.ensures_fail _
  | variant => exact (h.variantValue_ensures.mapError _).bind fun n hn => Attempt.ensures_pure hn
  | element i => exact ((h.element_ensures i).mapError _).bind fun n hn => Attempt.ensures_pure hn

/-- A walk arrives at the part at its location. -/
theorem reachAll_ensures (h : Holder α) (walk : List Access) :
    (h.reachAll walk).Ensures fun p => h.part? p.1 = some p.2 := by
  induction walk generalizing h with
  | nil => exact Attempt.ensures_pure h.part?_nil
  | cons a rest ih =>
    refine (h.reach_ensures a).bind fun p hp => (ih p.2).bind fun q hq => Attempt.ensures_pure ?_
    rw [part?_append hp, hq]

end Holder

end

section

variable {α : Type}

theorem Node.set_cons {n child : Node α} {i : Nat} (h : n.content.children[i]? = some child)
    (rest : Location) (new : Node α) :
    n.set (i :: rest) new = ⟨n.label, n.content.setChild i (child.set rest new)⟩ := by
  rw [set, h]

theorem Node.labels_set {n old : Node α} {location : Location} (h : n.get? location = some old) :
    ∃ pre post, n.labels = pre ++ (old.labels ++ post) ∧
      ∀ new, (n.set location new).labels = pre ++ (new.labels ++ post) := by
  induction location generalizing n with
  | nil => cases h; exact ⟨[], [], by simp, fun new => by simp [set]⟩
  | cons i rest ih =>
    obtain ⟨child, hchild, h⟩ := get?_cons_eq_some.1 h
    obtain ⟨pre, post, hold, hnew⟩ := ih h
    obtain ⟨hi, rfl⟩ := List.getElem?_eq_some_iff.1 hchild
    refine ⟨n.label :: ((n.content.children.take i).flatMap labels ++ pre),
      post ++ (n.content.children.drop (i + 1)).flatMap labels, ?_, ?_⟩
    · have hsplit : n.content.children = n.content.children.take i ++
          n.content.children[i] :: n.content.children.drop (i + 1) := by
        rw [List.getElem_cons_drop, List.take_append_drop]
      have hmap := congrArg (List.flatMap labels) hsplit
      rw [List.flatMap_append, List.flatMap_cons, hold] at hmap
      rw [labels_eq, Content.labels_eq, hmap]
      simp only [List.cons_append, List.append_assoc]
    · intro new
      rw [set_cons hchild, labels_eq, Content.labels_eq, Content.children_setChild,
        List.set_eq_take_append_cons_drop, if_pos hi]
      simp [hnew]

/-- The signals above the node at a location, the nearest first. -/
def Node.above : Node Cell → Location → List SignalId
  | _, [] => []
  | n, i :: rest =>
    match n.content.children[i]? with
    | some child => child.above rest ++ [n.label.signal]
    | none => []

theorem Node.linked_get? {s : Signals} {n old : Node Cell} {location : Location}
    (h : n.get? location = some old) (hn : n.content.Linked s n.label.signal) :
    old.content.Linked s old.label.signal := by
  induction location generalizing n with
  | nil => cases h; exact hn
  | cons i rest ih =>
    obtain ⟨child, hchild, h⟩ := get?_cons_eq_some.1 h
    exact ih h (hn child (List.mem_of_getElem? hchild)).content

theorem Node.Linked.ancestors {s : Signals} {parent : SignalId} {n : Node Cell} (h : n.Linked s parent) :
    s.ancestors n.label.signal = parent :: s.ancestors parent := by
  rw [Signals.ancestors, h.link]
  exact if_pos h.older

theorem Node.ancestors_get? {s : Signals} {n old : Node Cell} {location : Location}
    (h : n.get? location = some old) (hn : n.content.Linked s n.label.signal) :
    s.ancestors old.label.signal = n.above location ++ s.ancestors n.label.signal := by
  induction location generalizing n with
  | nil => cases h; rfl
  | cons i rest ih =>
    obtain ⟨child, hchild, h⟩ := get?_cons_eq_some.1 h
    have hlinked := hn child (List.mem_of_getElem? hchild)
    rw [ih h hlinked.content, hlinked.ancestors, above, hchild, List.append_assoc]
    rfl

theorem Node.linked_set {s t : Signals} {n old : Node Cell} {location : Location}
    (h : n.get? location = some old) (new : Node Cell) (hn : n.content.Linked s n.label.signal)
    (hst : s.Extends t) (hlabel : new.label = old.label) (hnew : new.content.Linked t old.label.signal) :
    (n.set location new).label = n.label ∧
      (n.set location new).content.Linked t n.label.signal := by
  induction location generalizing n with
  | nil => cases h; exact ⟨hlabel, hnew⟩
  | cons i rest ih =>
    obtain ⟨child, hchild, h⟩ := get?_cons_eq_some.1 h
    have hlinked := hn child (List.mem_of_getElem? hchild)
    obtain ⟨hl, hc⟩ := ih h hlinked.content
    rw [set_cons hchild]
    refine ⟨rfl, fun m hm => ?_⟩
    rw [Content.children_setChild] at hm
    rcases List.mem_or_eq_of_mem_set hm with hm | rfl
    · exact (hn m hm).mono hst
    · have hlinked := hlinked.mono hst
      refine .intro ?_ ?_ ?_ ?_
      · rw [hl]; exact hlinked.link
      · rw [hl]; exact hlinked.older
      · rw [hl]; exact hlinked.bound
      · rw [hl]; exact hc

end

section

variable {α : Type} [HasType α] {K : Set Ty}

theorem Node.Typed.get? {n old : Node α} {location : Location} (h : n.get? location = some old)
    (hn : n.Typed K) : old.Typed K := by
  induction location generalizing n with
  | nil => cases h; exact hn
  | cons i rest ih =>
    obtain ⟨child, hchild, h⟩ := get?_cons_eq_some.1 h
    exact ih h (hn.content.child (List.mem_of_getElem? hchild))

theorem Node.Typed.holder {n : Node α} (h : n.Typed K) : n.holder.Typed K := by
  refine ⟨h.type_mem, fun c hc => ?_⟩
  cases hc
  exact h.content

theorem Holder.Typed.part? {h a : Holder α} {location : Location} (hh : h.Typed K)
    (ha : h.part? location = some a) : a.Typed K := by
  rcases part?_cases ha with ⟨-, rfl, -⟩ | ⟨n, m, rfl, rfl, hm⟩
  · exact hh
  · have hn : n.Typed K := Node.typed_mk hh.type (hh.content n.content rfl)
    exact (hn.get? hm).holder

theorem Holder.Typed.snapshot {h : Holder α} (hh : h.Typed K) : h.snapshot.Typed K := by
  refine ⟨hh.type, fun c hc => ?_⟩
  obtain ⟨d, hd, rfl⟩ := Option.map_eq_some_iff.1 hc
  exact Content.typed_relabel.2 (hh.content d hd)

/-- A child may give its place to another of the same type. -/
theorem Content.Typed.setChild {t : Ty} {c : Content α} {i : Nat} {child new : Node α}
    (hc : c.Typed K t) (hi : c.children[i]? = some child) (htype : new.type = child.type)
    (hnew : new.Typed K) : (c.setChild i new).Typed K t := by
  have suits {u : Ty} (h : child.Suits K u) : new.Suits K u := ⟨hnew, by rw [htype]; exact h.type⟩
  have only {inner : Node α} (h : [inner][i]? = some child) : i = 0 ∧ inner = child := by
    cases i with
    | zero => exact ⟨rfl, Option.some.inj h⟩
    | succ i => cases h
  cases hfits : hc.fits with
  | some shape =>
    obtain ⟨rfl, rfl⟩ := only hi
    exact .optional shape (suits (hc.suits_of_some shape))
  | variant shape index =>
    obtain ⟨rfl, rfl⟩ := only hi
    exact .variant shape index (suits (hc.suits_of_variant shape index))
  | struct shape =>
    exact .struct shape (forall₂_set (hc.suits_of_struct shape) hi fun m h => suits h)
  | array shape =>
    refine .array shape fun n hn => ?_
    rcases List.mem_or_eq_of_mem_set hn with hn | rfl
    · exact hc.suits_of_array shape n hn
    · exact suits (hc.suits_of_array shape child (List.mem_of_getElem? hi))
  | _ => cases hi

theorem Node.Typed.set {n old : Node α} {location : Location} (h : n.get? location = some old)
    (new : Node α) (hn : n.Typed K) (htype : new.type = old.type) (hnew : new.Typed K) :
    (n.set location new).type = n.type ∧ (n.set location new).Typed K := by
  induction location generalizing n with
  | nil => cases h; exact ⟨htype, hnew⟩
  | cons i rest ih =>
    obtain ⟨child, hchild, h⟩ := get?_cons_eq_some.1 h
    obtain ⟨ht, hset⟩ := ih h (hn.content.child (List.mem_of_getElem? hchild))
    rw [set_cons hchild]
    exact ⟨rfl, typed_mk hn.type_mem (hn.content.setChild hchild ht hset)⟩

end

end TypedValues
