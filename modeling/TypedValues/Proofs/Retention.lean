import TypedValues.Proofs.ArrayEdits

/-! Retention. Merging staged content into live content of a compatible type tells whether the two were equal and makes
them equal. On the way it keeps every node that both have: the node stays the one that it was, of its type and with its
observers. All other nodes of the outcome are staged ones under new signals. -/

namespace TypedValues

section

variable {α β : Type}

/-- The children that both contents have, in pairs: the values of optionals that are set, the values of variants with
one alternative active, members, and elements as far as both arrays go. -/
def Content.pairs : Content α → Content β → List (Node α × Node β)
  | .optional (some a), .optional (some b) => [(a, b)]
  | .variant i a, .variant j b => if i = j then [(a, b)] else []
  | .struct as, .struct bs => as.zip bs
  | .array as, .array bs => as.zip bs
  | _, _ => []

/-- The nodes that both trees have at the location, where both have one all the way down to it. -/
def Node.shared? : Node α → Node β → Location → Option (Node α × Node β)
  | a, b, [] => some (a, b)
  | a, b, i :: rest => (a.content.pairs b.content)[i]?.bind fun p => p.1.shared? p.2 rest

theorem Content.pairs_getElem? {c : Content α} {d : Content β} {i : Nat} {p : Node α × Node β}
    (h : (c.pairs d)[i]? = some p) : c.children[i]? = some p.1 ∧ d.children[i]? = some p.2 := by
  have one {a : Node α} {b : Node β} (h : [(a, b)][i]? = some p) : [a][i]? = some p.1 ∧ [b][i]? = some p.2 := by
    cases i with
    | zero => cases h; exact ⟨rfl, rfl⟩
    | succ i => cases h
  unfold pairs at h
  split at h
  · exact one h
  · split at h
    · exact one h
    · cases h
  · exact List.getElem?_zip_eq_some.1 h
  · exact List.getElem?_zip_eq_some.1 h
  · cases h

theorem Node.shared?_get? {a x : Node α} {b y : Node β} {location : Location}
    (h : a.shared? b location = some (x, y)) : a.get? location = some x ∧ b.get? location = some y := by
  induction location generalizing a b with
  | nil => cases h; exact ⟨rfl, rfl⟩
  | cons i rest ih =>
    obtain ⟨p, hp, h⟩ := Option.bind_eq_some_iff.1 h
    obtain ⟨ha, hb⟩ := Content.pairs_getElem? hp
    obtain ⟨hx, hy⟩ := ih h
    exact ⟨get?_cons_eq_some.2 ⟨_, ha, hx⟩, get?_cons_eq_some.2 ⟨_, hb, hy⟩⟩

end

/-- Child by child, the tree has the shared nodes, merged one into the other, and for the rest the staged ones, planted
under `signal`. Signals may be added from child to child. -/
def Woven (s : Signals) (signal : SignalId) (pairs : List (Node Cell × Node Ty)) (staged : List (Node Ty))
    (tree : List (Node Cell)) : Prop :=
  ∀ i : Nat, ∃ t, s.Grows t ∧ tree[i]? = match pairs[i]? with
    | some (a, b) => some (b.mergeInto a t).tree
    | none => staged[i]?.map fun b => (b.plant signal t).1

namespace Woven

variable {s t : Signals} {signal : SignalId} {pairs : List (Node Cell × Node Ty)} {staged : List (Node Ty)}
  {tree : List (Node Cell)} {a : Node Cell} {b : Node Ty}

theorem nil (s : Signals) (signal : SignalId) : Woven s signal [] [] [] := fun _ => ⟨s, .refl s, rfl⟩

theorem merged (hgrows : s.Grows t) (h : Woven t signal pairs staged tree) :
    Woven s signal ((a, b) :: pairs) (b :: staged) ((b.mergeInto a s).tree :: tree) := by
  intro i
  cases i with
  | zero => exact ⟨s, .refl s, rfl⟩
  | succ i =>
    obtain ⟨u, hu, hi⟩ := h i
    exact ⟨u, hgrows.trans hu, hi⟩

theorem planted (hgrows : s.Grows t) (h : Woven t signal [] staged tree) :
    Woven s signal [] (b :: staged) ((b.plant signal s).1 :: tree) := by
  intro i
  cases i with
  | zero => exact ⟨s, .refl s, rfl⟩
  | succ i =>
    obtain ⟨u, hu, hi⟩ := h i
    exact ⟨u, hgrows.trans hu, hi⟩

end Woven

namespace Node

variable {as : List (Node Cell)} {bs : List (Node Ty)}

theorem mergeMembers_woven (hlength : as.length = bs.length)
    (h : ∀ p ∈ as.zip bs, p.1.content.Alike p.2.content) (signal : SignalId) (s : Signals) :
    Woven s signal (as.zip bs) bs (mergeMembers bs as s).tree := by
  induction as generalizing bs s with
  | nil =>
    cases bs with
    | nil => exact .nil s signal
    | cons b bs => cases hlength
  | cons a as ih =>
    cases bs with
    | nil => cases hlength
    | cons b bs =>
      rw [List.zip_cons_cons, List.forall_mem_cons] at h
      have hgrows : s.Grows (b.mergeInto a s).signals := by
        rw [mergeInto_eq]
        exact (h.1.merges a.label.signal s).keeps.grows
      rw [mergeMembers]
      exact .merged hgrows (ih (Nat.succ.inj hlength) h.2 _)

theorem mergeElements_woven (h : ∀ p ∈ as.zip bs, p.1.content.Alike p.2.content) (signal : SignalId)
    (s : Signals) : Woven s signal (as.zip bs) bs (mergeElements signal bs as s).tree := by
  induction bs generalizing as s with
  | nil =>
    rw [mergeElements, List.zip_nil_right]
    exact .nil s signal
  | cons b bs ih =>
    cases as with
    | nil =>
      have hnone : ∀ p ∈ ([] : List (Node Cell)).zip bs, p.1.content.Alike p.2.content := fun p hp => by cases hp
      rw [mergeElements, List.zip_nil_left]
      exact .planted (b.planted signal s).keeps.grows (ih hnone _)
    | cons a as =>
      rw [List.zip_cons_cons, List.forall_mem_cons] at h
      have hgrows : s.Grows (b.mergeInto a s).signals := by
        rw [mergeInto_eq]
        exact (h.1.merges a.label.signal s).keeps.grows
      rw [mergeElements]
      exact .merged hgrows (ih h.2 _)

end Node

namespace Content.Alike

variable {current : Content Cell} {staged : Content Ty}

theorem pair (h : current.Alike staged) : ∀ p ∈ current.pairs staged, p.1.content.Alike p.2.content := by
  have one {a : Node Cell} {b : Node Ty} (h : a.content.Alike b.content) :
      ∀ p ∈ [(a, b)], p.1.content.Alike p.2.content := List.forall_mem_singleton.2 h
  cases h with
  | optional inner => exact one inner
  | variant i inner => rw [pairs, if_pos rfl]; exact one inner
  | switched a index => rw [pairs, if_neg index]; simp
  | struct _ inner => exact inner
  | array _ inner => exact inner
  | _ => simp [pairs]

theorem woven (h : current.Alike staged) (signal : SignalId) (s : Signals) :
    Woven s signal (current.pairs staged) staged.children (current.merge signal staged s).tree.children := by
  have hpair := h.pair
  cases h with
  | reals as number =>
    rw [merge]
    split <;> exact .nil s signal
  | filled number => exact .planted (.refl s) (.nil s signal)
  | optional inner => exact .merged (.refl s) (.nil s signal)
  | switched a index number =>
    rw [merge, pairs, if_neg index, if_neg index]
    exact .planted (.refl s) (.nil s signal)
  | variant i inner =>
    rw [merge, pairs, if_pos rfl, if_pos rfl]
    exact .merged (.refl s) (.nil s signal)
  | struct length inner => exact Node.mergeMembers_woven length inner signal s
  | array number inner => exact Node.mergeElements_woven inner signal s
  | _ => exact .nil s signal

end Content.Alike

/-- What came of merging `b` into `a`, when there were the signals `s`. Shared nodes are of one kind, and structs have
their members in common. A shared node is still the one that it was, and has the staged content; every other node is the
staged one, and new. -/
structure Node.Retains (s : Signals) (a : Node Cell) (b : Node Ty) (tree : Node Cell) : Prop where
  kind : ∀ location x y, a.shared? b location = some (x, y) → x.content.kind = y.content.kind
  members : ∀ location x y ms ns, a.shared? b location = some (x, y) → x.content = .struct ms → y.content = .struct ns →
    ms.length = ns.length
  kept : ∀ location x y, a.shared? b location = some (x, y) → a.get? location = some x ∧ b.get? location = some y ∧
    ∃ z, tree.get? location = some z ∧ z.label = x.label ∧ z.content.equals y.content = true
  staged : ∀ location, a.shared? b location = none → (tree.get? location).map (relabel HasType.type) = b.get? location
  fresh : ∀ location z, a.shared? b location = none → tree.get? location = some z → s.all.size ≤ z.label.signal

namespace Content.Alike

variable {a x : Node Cell} {b y : Node Ty} {location : Location}

theorem kind {current : Content Cell} {staged : Content Ty} (h : current.Alike staged) :
    current.kind = staged.kind := by
  cases h <;> rfl

theorem shared (h : a.content.Alike b.content) (hshared : a.shared? b location = some (x, y)) :
    x.content.Alike y.content := by
  induction location generalizing a b with
  | nil => cases hshared; exact h
  | cons i rest ih =>
    obtain ⟨p, hp, hshared⟩ := Option.bind_eq_some_iff.1 hshared
    exact ih (h.pair p (List.mem_of_getElem? hp)) hshared

theorem kept (h : a.content.Alike b.content) (hshared : a.shared? b location = some (x, y)) (s : Signals) :
    ∃ z, (b.mergeInto a s).tree.get? location = some z ∧ z.label = x.label ∧
      z.content.equals y.content = true := by
  induction location generalizing a b s with
  | nil =>
    cases hshared
    rw [Node.mergeInto_eq]
    exact ⟨_, rfl, rfl, (h.merges x.label.signal s).equal⟩
  | cons i rest ih =>
    obtain ⟨p, hp, hshared⟩ := Option.bind_eq_some_iff.1 hshared
    obtain ⟨t, -, hchild⟩ := h.woven a.label.signal s i
    rw [hp] at hchild
    obtain ⟨z, hz, hrest⟩ := ih (h.pair p (List.mem_of_getElem? hp)) hshared t
    rw [Node.mergeInto_eq]
    exact ⟨z, Node.get?_cons_eq_some.2 ⟨_, hchild, hz⟩, hrest⟩

theorem taken (h : a.content.Alike b.content) (hshared : a.shared? b location = none) (s : Signals) :
    ((b.mergeInto a s).tree.get? location).map (Node.relabel HasType.type) = b.get? location ∧
      ∀ z, (b.mergeInto a s).tree.get? location = some z → s.all.size ≤ z.label.signal := by
  -- as far down as the two trees share their nodes; from there on all is planted
  induction location generalizing a b s with
  | nil => cases hshared
  | cons i rest ih =>
    obtain ⟨t, hgrows, hchild⟩ := h.woven a.label.signal s i
    rw [Node.mergeInto_eq, Node.get?_cons, Node.get?_cons, hchild]
    cases hp : (a.content.pairs b.content)[i]? with
    | some p =>
      rw [Node.shared?, hp, Option.bind_some] at hshared
      obtain ⟨hstaged, hfresh⟩ := ih (h.pair p (List.mem_of_getElem? hp)) hshared t
      rw [(pairs_getElem? hp).2]
      exact ⟨hstaged, fun z hz => hgrows.size.trans (hfresh z hz)⟩
    | none =>
      cases b.content.children[i]? with
      | none => exact ⟨rfl, fun z hz => by cases hz⟩
      | some n =>
        refine ⟨?_, fun z hz => hgrows.size.trans ?_⟩
        · rw [Option.map_some, Option.bind_some, Option.bind_some, ← Node.get?_relabel, Node.relabel_plant]
        · obtain ⟨c, hc, hsignal⟩ := List.mem_map.1 (Node.signal_mem hz)
          exact hsignal ▸ n.size_le_of_mem_plant a.label.signal t hc

end Content.Alike

/-- A way to put staged content in the place of current content of another kind. -/
abbrev Fallback := SignalId → Content Cell → Content Ty → Signals → Merged (Content Cell)

/-- The way that merging takes: the staged content is planted. -/
def Fallback.plant : Fallback := fun signal _ staged s => .planted (staged.plant signal s)

mutual

/-- Merging with `other` as the way out where the contents are of different kinds. -/
def Content.mergeOr (other : Fallback) (signal : SignalId) (current : Content Cell) (staged : Content Ty)
    (s : Signals) : Merged (Content Cell) :=
  match staged, current with
  | .bool b, .bool a => ⟨.bool b, a != b, s, []⟩
  | .ints b, .ints a => ⟨.ints b, a != b, s, []⟩
  | .reals b, .reals a => if equalReals a b then .unchanged (.reals a) s else ⟨.reals b, true, s, []⟩
  | .text b, .text a => ⟨.text b, a != b, s, []⟩
  | .item b, .item a => ⟨.item b, a != b, s, []⟩
  | .optional none, .optional none => .unchanged (.optional none) s
  | .optional none, .optional (some _) => ⟨.optional none, true, s, []⟩
  | .optional (some b), .optional none => (Merged.planted (b.plant signal s)).map (.optional ∘ some)
  | .optional (some b), .optional (some a) => (b.mergeIntoOr other a s).map (.optional ∘ some)
  | .variant j b, .variant i a =>
    if i = j then (b.mergeIntoOr other a s).map (.variant i)
    else (Merged.planted (b.plant signal s)).map (.variant j)
  | .struct bs, .struct as => (Node.mergeMembersOr other bs as s).map .struct
  | .array bs, .array as => (Node.mergeElementsOr other signal bs as s).map .array
  | staged, current => other signal current staged s

def Node.mergeIntoOr (other : Fallback) (staged : Node Ty) (current : Node Cell) (s : Signals) :
    Merged (Node Cell) :=
  match staged, current with
  | ⟨_, content⟩, ⟨cell, old⟩ =>
    let m := Content.mergeOr other cell.signal old content s
    let own := if m.changed then m.signals.observers cell.signal else []
    ⟨⟨cell, m.tree⟩, m.changed, m.signals, m.called ++ own⟩

def Node.mergeMembersOr (other : Fallback) (staged : List (Node Ty)) (current : List (Node Cell)) (s : Signals) :
    Merged (List (Node Cell)) :=
  match staged, current with
  | b :: bs, a :: as =>
    let m := b.mergeIntoOr other a s
    let rest := Node.mergeMembersOr other bs as m.signals
    ⟨m.tree :: rest.tree, m.changed || rest.changed, rest.signals, m.called ++ rest.called⟩
  | _, as => .unchanged as s

def Node.mergeElementsOr (other : Fallback) (signal : SignalId) (staged : List (Node Ty))
    (current : List (Node Cell)) (s : Signals) : Merged (List (Node Cell)) :=
  match staged, current with
  | b :: bs, a :: as =>
    let m := b.mergeIntoOr other a s
    let rest := Node.mergeElementsOr other signal bs as m.signals
    ⟨m.tree :: rest.tree, m.changed || rest.changed, rest.signals, m.called ++ rest.called⟩
  | b :: bs, [] =>
    let (n, s) := b.plant signal s
    let rest := Node.mergeElementsOr other signal bs [] s
    ⟨n :: rest.tree, true, rest.signals, rest.called⟩
  | [], as => ⟨[], !as.isEmpty, s, []⟩

end

section

variable {other : Fallback}

/-- The two ways to merge come to the same for the pair of nodes. -/
def Indifferent (other : Fallback) (p : Node Cell × Node Ty) : Prop :=
  ∀ signal s, p.1.content.mergeOr other signal p.2.content s = p.1.content.merge signal p.2.content s

theorem Node.mergeIntoOr_eq {a : Node Cell} {b : Node Ty} (h : Indifferent other (a, b)) (s : Signals) :
    b.mergeIntoOr other a s = b.mergeInto a s := by
  rcases a with ⟨cell, old⟩
  rcases b with ⟨type, content⟩
  rw [mergeIntoOr, mergeInto, h cell.signal s]

theorem Node.mergeMembersOr_eq {as : List (Node Cell)} {bs : List (Node Ty)}
    (h : ∀ p ∈ as.zip bs, Indifferent other p) (s : Signals) :
    mergeMembersOr other bs as s = mergeMembers bs as s := by
  induction as generalizing bs s with
  | nil => cases bs <;> rfl
  | cons a as ih =>
    cases bs with
    | nil => rfl
    | cons b bs =>
      rw [List.zip_cons_cons, List.forall_mem_cons] at h
      rw [mergeMembersOr, mergeMembers, mergeIntoOr_eq h.1, ih h.2]

theorem Node.mergeElementsOr_eq {as : List (Node Cell)} {bs : List (Node Ty)}
    (h : ∀ p ∈ as.zip bs, Indifferent other p) (signal : SignalId) (s : Signals) :
    mergeElementsOr other signal bs as s = mergeElements signal bs as s := by
  induction bs generalizing as s with
  | nil => rfl
  | cons b bs ih =>
    cases as with
    | nil =>
      have hnone : ∀ p ∈ ([] : List (Node Cell)).zip bs, Indifferent other p := fun p hp => by cases hp
      simp only [mergeElementsOr, mergeElements, ih hnone]
    | cons a as =>
      rw [List.zip_cons_cons, List.forall_mem_cons] at h
      rw [mergeElementsOr, mergeElements, mergeIntoOr_eq h.1, ih h.2]

namespace Content

variable {current : Content Cell} {staged : Content Ty}

/-- The last branch is the one for different kinds. -/
theorem merge_of_kind_ne (h : current.kind ≠ staged.kind) (other : Fallback) (signal : SignalId) (s : Signals) :
    current.mergeOr other signal staged s = other signal current staged s ∧
      current.merge signal staged s = Fallback.plant signal current staged s := by
  rcases staged with _ | _ | _ | _ | _ | (_ | _) | _ | _ | _ <;>
    rcases current with _ | _ | _ | _ | _ | (_ | _) | _ | _ | _ <;>
    first | exact absurd rfl h | exact ⟨rfl, rfl⟩

/-- The way out makes no difference if it is the one that merging takes, or if it is not needed. -/
theorem mergeOr_eq (h : current.Alike staged ∨ other = Fallback.plant) (signal : SignalId) (s : Signals) :
    current.mergeOr other signal staged s = current.merge signal staged s := by
  induction staged using Content.inductOn generalizing current signal s with
  | step staged ih =>
    have pair : ∀ p ∈ current.pairs staged, Indifferent other p := by
      intro p hp signal s
      obtain ⟨i, hi⟩ := List.mem_iff_getElem?.1 hp
      exact ih p.2 (List.mem_of_getElem? (pairs_getElem? hi).2) (h.imp_left fun h => h.pair p hp) signal s
    by_cases hkind : current.kind = staged.kind
    · cases staged with
      | optional b =>
        cases current with
        | optional a =>
          rcases a with _ | a <;> rcases b with _ | b
          · rfl
          · rfl
          · rfl
          · rw [mergeOr, merge, Node.mergeIntoOr_eq (pair _ List.mem_cons_self)]
        | _ => cases hkind
      | variant j b =>
        cases current with
        | variant i a =>
          rw [mergeOr, merge]
          split
          next hij => rw [Node.mergeIntoOr_eq (pair _ (by rw [pairs, if_pos hij]; exact List.mem_cons_self))]
          next => rfl
        | _ => cases hkind
      | struct bs =>
        cases current with
        | struct as => rw [mergeOr, merge, Node.mergeMembersOr_eq pair]
        | _ => cases hkind
      | array bs =>
        cases current with
        | array as => rw [mergeOr, merge, Node.mergeElementsOr_eq pair]
        | _ => cases hkind
      | _ => cases current <;> first | rfl | cases hkind
    · obtain ⟨hor, hmerge⟩ := merge_of_kind_ne hkind other signal s
      rw [hor, hmerge, h.resolve_left fun h => hkind h.kind]

theorem mergeOr_plant (current : Content Cell) (staged : Content Ty) (signal : SignalId) (s : Signals) :
    current.mergeOr .plant signal staged s = current.merge signal staged s :=
  mergeOr_eq (.inr rfl) signal s

end Content

end

/-- Merging `staged`, of type `type`, into `current`, the content of the node with the label `cell`. -/
structure Retention (cell : Cell) (current : Content Cell) (type : Ty) (staged : Content Ty) (s : Signals)
    (m : Merged (Content Cell)) : Prop where
  changed : m.changed = true ↔ current.equals staged = false
  equal : m.tree.equals staged = true
  nodes : Node.Retains s ⟨cell, current⟩ ⟨type, staged⟩ ⟨cell, m.tree⟩
  observers : ∀ id, m.signals.observers id = s.observers id
  /-- No two contents of different kinds meet: what is done with them makes no difference. -/
  alike : ∀ other, current.mergeOr other cell.signal staged s = m

theorem Content.Alike.retention {current : Content Cell} {staged : Content Ty} (h : current.Alike staged)
    (cell : Cell) (type : Ty) (s : Signals) :
    Retention cell current type staged s (current.merge cell.signal staged s) := by
  have hmerges := h.merges cell.signal s
  have halike : (⟨cell, current⟩ : Node Cell).content.Alike (⟨type, staged⟩ : Node Ty).content := h
  refine ⟨?_, hmerges.equal, ⟨?_, ?_, ?_, ?_, ?_⟩, hmerges.keeps.grows.observers, fun other => ?_⟩
  · rw [hmerges.changed, Bool.not_eq_true']
  · intro location x y hshared
    exact (halike.shared hshared).kind
  · intro location x y ms ns hshared hms hns
    have hstructs := halike.shared hshared
    rw [hms, hns] at hstructs
    cases hstructs with
    | struct length _ => exact length
  · intro location x y hshared
    obtain ⟨hx, hy⟩ := Node.shared?_get? hshared
    exact ⟨hx, hy, halike.kept hshared s⟩
  · intro location hshared
    exact (halike.taken hshared s).1
  · intro location z hshared
    exact (halike.taken hshared s).2 z
  · exact mergeOr_eq (.inl h) cell.signal s

namespace Session

/-- The content is well typed: it fits the type, and the session knows that type and all types within. -/
structure Types {α : Type} [HasType α] (s : Session) (t : Ty) (c : Content α) : Prop where
  type : s.Knows t
  fits : c.Fits t
  labels : ∀ l ∈ c.labels, s.Knows (HasType.type l)

/-- A merge is correct, whatever signals there are and whichever of them is that of the node. -/
theorem merge_retains {s : Session} (hs : s.Reachable) {t u : Ty} (htu : t.compatible u = true)
    {current : Content Cell} {staged : Content Ty} (hcurrent : s.Types t current) (hstaged : s.Types u staged)
    (signal : SignalId) (signals : Signals) :
    Retention ⟨t, signal⟩ current u staged signals (current.merge signal staged signals) := by
  obtain ⟨K, hK⟩ := hs.invariant
  have hsound := hK.sound
  have hfits : staged.Fits t :=
    hsound.catalog.fits (hsound.knows hstaged.type) (hsound.knows hcurrent.type) (Ty.compatible_symm htu) hstaged.fits
  have halike : current.Alike staged := hcurrent.fits.alike hsound.catalog hfits
    (fun c hc => hsound.knows (hcurrent.labels c hc)) (fun v hv => hsound.knows (hstaged.labels v hv))
  exact halike.retention ⟨t, signal⟩ u signals

def rings : Content Ty := .array [⟨boolType, .bool true⟩, ⟨boolType, .bool true⟩, ⟨boolType, .bool false⟩]

theorem hung_types {α : Type} [HasType α] {ns : List (Node α)}
    (h : ∀ n ∈ ns, n.type = boolType ∧ ∃ b, n.content = .bool b) :
    hung.Types bellsType (.array ns : Content α) := by
  have hporch : hung.values.get? "porch" = some porch := by rfl
  have hbool : hung.Knows boolType := .value ⟨"porch", porch, [0], hporch, rfl⟩
  refine ⟨.value ⟨"porch", porch, [], hporch, rfl⟩, .array rfl (fun n hn => ?_) (fun n hn => ?_), fun l hl => ?_⟩
  · rw [(h n hn).1]
    exact Ty.compatible_refl boolType
  · obtain ⟨htype, b, hb⟩ := h n hn
    rw [htype, hb]
    exact .bool rfl
  · rw [Content.labels_eq] at hl
    obtain ⟨n, hn, hl⟩ := List.mem_flatMap.1 hl
    obtain ⟨htype, b, hb⟩ := h n hn
    rw [n.labels_eq, hb] at hl
    obtain rfl : l = n.label := List.mem_singleton.1 hl
    rw [show HasType.type n.label = boolType from htype]
    exact hbool

/-- The two bells stay, of which the second one changes, and a third one is new. -/
theorem merge_retains_hung : hung.Reachable ∧ hung.Types bellsType (.array porchBells : Content Cell) ∧
    hung.Types bellsType rings ∧
    Retention ⟨bellsType, 2⟩ (.array porchBells) bellsType rings hung.signals
      ((Content.array porchBells).merge 2 rings hung.signals) ∧
    ((Content.array porchBells).merge 2 rings hung.signals).tree =
      .array [⟨⟨boolType, 3⟩, .bool true⟩, ⟨⟨boolType, 4⟩, .bool true⟩, ⟨⟨boolType, 5⟩, .bool false⟩] := by
  have hcurrent : hung.Types bellsType (.array porchBells : Content Cell) :=
    hung_types (by simp [porchBells, Node.type, HasType.type])
  have hstaged : hung.Types bellsType rings := hung_types (by simp [Node.type, HasType.type])
  refine ⟨hung_reachable, hcurrent, hstaged, ?_, by rfl⟩
  exact merge_retains hung_reachable (Ty.compatible_refl bellsType) hcurrent hstaged 2 hung.signals

end Session

end TypedValues
