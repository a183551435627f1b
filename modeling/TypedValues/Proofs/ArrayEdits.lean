import TypedValues.Proofs.Locality

/-! Arrays as lists. A default is inserted anywhere up to the length if the type of the elements has one, and any
element is removed; the others stay the nodes that they are, with their observers. What becomes of a new element
later is heard by those who observe the array, wherever the element has moved by then. -/

namespace TypedValues

/-- There is a default to start from: an item, an alternative, or one for each member. -/
inductive Ty.HasDefault : Ty → Prop where
  | plain {t : Ty} (enum : t.kind ≠ .enum) (variant : t.kind ≠ .variant) (struct : t.kind ≠ .struct) : HasDefault t
  | enum {t : Ty} {d : EnumDef} {i : Nat} (hs : t.shape = .enum d) (item : d.defaultItem = some i) : HasDefault t
  | variant {t first : Ty} {rest : List Ty} (hs : t.shape = .variant (first :: rest)) (h : HasDefault first) :
      HasDefault t
  | struct {t : Ty} {base : Option Ty} {ms : List Member} (hs : t.shape = .struct base ms)
      (h : ∀ m ∈ ms, m.default = none → HasDefault m.type) : HasDefault t

theorem defaultMembers_isOk_iff {ms : List Member} : (∃ ns, defaultMembers ms = .ok ns) ↔
    ∀ m ∈ ms, m.default = none → ∃ c, defaultContent m.type = .ok c := by
  induction ms with
  | nil => exact ⟨fun _ _ hm => (by cases hm), fun _ => ⟨[], rfl⟩⟩
  | cons m ms ih =>
    rw [List.forall_mem_cons, ← ih]
    rcases m with ⟨symbol, type, _ | declared⟩
    · simp only [defaultMembers, Except.bind_eq_ok, underSite_eq_ok, Except.pure_eq_ok, forall_const]
      constructor
      · rintro ⟨_, c, hc, ns, hns, rfl⟩
        exact ⟨⟨c, hc⟩, ns, hns⟩
      · rintro ⟨⟨c, hc⟩, ns, hns⟩
        exact ⟨_, c, hc, ns, hns, rfl⟩
    · simp only [defaultMembers, Except.bind_eq_ok, Except.pure_eq_ok, reduceCtorEq, false_imp_iff, true_and]
      constructor
      · rintro ⟨_, ns, hns, rfl⟩
        exact ⟨ns, hns⟩
      · rintro ⟨ns, hns⟩
        exact ⟨_, ns, hns, rfl⟩

namespace Ty.HasDefault

variable {t : Ty}

theorem of_enum {d : EnumDef} (h : t.HasDefault) (hs : t.shape = .enum d) : ∃ i, d.defaultItem = some i := by
  cases h with
  | plain enum => exact absurd (by rw [Ty.kind, hs]; rfl) enum
  | enum hs' item => cases hs.symm.trans hs'; exact ⟨_, item⟩
  | variant hs' | struct hs' => cases hs.symm.trans hs'

theorem of_variant {us : List Ty} (h : t.HasDefault) (hs : t.shape = .variant us) :
    ∃ first rest, us = first :: rest ∧ first.HasDefault := by
  cases h with
  | plain enum variant => exact absurd (by rw [Ty.kind, hs]; rfl) variant
  | variant hs' h => cases hs.symm.trans hs'; exact ⟨_, _, rfl, h⟩
  | enum hs' | struct hs' => cases hs.symm.trans hs'

theorem of_struct {base : Option Ty} {ms : List Member} (h : t.HasDefault) (hs : t.shape = .struct base ms) :
    ∀ m ∈ ms, m.default = none → m.type.HasDefault := by
  cases h with
  | plain enum variant struct => exact absurd (by rw [Ty.kind, hs]; rfl) struct
  | struct hs' h => cases hs.symm.trans hs'; exact h
  | enum hs' | variant hs' => cases hs.symm.trans hs'

end Ty.HasDefault

theorem defaultContent_isOk_iff {t : Ty} : (∃ c, defaultContent t = .ok c) ↔ t.HasDefault := by
  induction t using Ty.inductOn with
  | step t ih =>
    rcases t with ⟨identity, symbol, id, shape, attributes, aliased⟩
    have plain {c : Content Ty} {t : Ty} (h : defaultContent t = .ok c) (enum : t.kind ≠ .enum)
        (variant : t.kind ≠ .variant) (struct : t.kind ≠ .struct) :
        (∃ c, defaultContent t = .ok c) ↔ t.HasDefault := ⟨fun _ => .plain enum variant struct, fun _ => ⟨c, h⟩⟩
    cases shape with
    | bool | integral | real | string | optional | array => exact plain rfl nofun nofun nofun
    | enum d =>
      rw [defaultContent]
      constructor
      · rintro ⟨c, hc⟩
        split at hc
        next i hi => exact .enum rfl hi
        next => cases hc
      · intro h
        obtain ⟨i, hi⟩ := h.of_enum rfl
        exact ⟨.item i, by rw [hi]⟩
    | variant us =>
      constructor
      · rintro ⟨c, hc⟩
        cases us with
        | nil => cases hc
        | cons first rest =>
          rw [defaultContent, Except.bind_eq_ok] at hc
          obtain ⟨inner, hinner, -⟩ := hc
          exact .variant rfl ((ih first List.mem_cons_self).1 ⟨inner, hinner⟩)
      · intro h
        obtain ⟨first, rest, rfl, hfirst⟩ := h.of_variant rfl
        obtain ⟨inner, hinner⟩ := (ih first List.mem_cons_self).2 hfirst
        exact ⟨_, by rw [defaultContent, hinner]; rfl⟩
    | struct base ms =>
      have hall : (∃ ns, defaultMembers ms = .ok ns) ↔ ∀ m ∈ ms, m.default = none → m.type.HasDefault := by
        rw [defaultMembers_isOk_iff]
        exact forall₂_congr fun m hm => imp_congr_right fun _ => ih m.type (List.mem_map_of_mem hm)
      constructor
      · rintro ⟨c, hc⟩
        rw [defaultContent, Except.bind_eq_ok] at hc
        obtain ⟨ns, hns, -⟩ := hc
        exact .struct rfl (hall.1 ⟨ns, hns⟩)
      · intro h
        obtain ⟨ns, hns⟩ := hall.2 (h.of_struct rfl)
        exact ⟨_, by rw [defaultContent, hns]; rfl⟩

namespace Holder

variable {α : Type} [HasType α] {h : Holder α} {es : List (Node α)} {E : Ty} {p : Policy}

theorem elements_of_array (hc : h.content = some (.array es)) : h.elements = pure es := by
  rw [elements, constructed, hc]
  rfl

theorem stageInsert_eq_ok (hc : h.content = some (.array es)) (hs : h.type.shape = .array (some E)) {i : Nat}
    {e : Edit} : ((h.stageInsert i).run p).outcome = .ok e ↔
      i ≤ es.length ∧ ∃ c, defaultContent E = .ok c ∧ e = .insert i ⟨E, c⟩ := by
  constructor
  · intro hstage
    obtain ⟨u, c, es', hs', hdefault, rfl, hc', hle⟩ := h.stageInsert_ensures i _ _ hstage
    cases hs.symm.trans hs'
    cases hc.symm.trans hc'
    exact ⟨hle, c, hdefault, rfl⟩
  · rintro ⟨hle, c, hdefault, rfl⟩
    have htype : h.elementType .insertDefault = pure E := by rw [elementType, hs]
    simp only [stageInsert, elements_of_array hc, pure_bind, htype, hdefault, if_neg (Nat.not_lt.2 hle)]
    rfl

theorem stageRemove_eq_ok (hc : h.content = some (.array es)) {i : Nat} {r : Edit × Option Nat} :
    ((h.stageChange (.remove i)).run p).outcome = .ok r ↔ i < es.length ∧ r = (.remove i, none) := by
  have hstage : h.stageChange (.remove i) = do
      if es.length ≤ i then h.refuse (.indexOutside i es.length)
      return (.remove i, none) := by
    rw [stageChange, elements_of_array hc, pure_bind]
  rw [hstage]
  by_cases hi : es.length ≤ i
  · rw [if_pos hi]
    exact ⟨nofun, fun ⟨hlt, _⟩ => absurd hi (Nat.not_le.2 hlt)⟩
  · rw [if_neg hi]
    exact ⟨fun heq => ⟨Nat.lt_of_not_le hi, by cases heq; rfl⟩, fun ⟨_, heq⟩ => by rw [heq]; rfl⟩

/-- Pushing is inserting at the end, but for the position that it gives. -/
theorem stagePush_eq (hc : h.content = some (.array es)) : h.stageChange .pushDefault = do
    let (e, _) ← h.stageChange (.insertDefault es.length)
    return (e, some es.length) := by
  rw [stageChange, stageChange, elements_of_array hc, pure_bind, bind_assoc]
  rfl

end Holder

namespace Node

variable {n m x : Node Cell} {location below : Location}

theorem above_append (h : n.get? location = some m) (below : Location) :
    n.above (location ++ below) = m.above below ++ n.above location := by
  induction location generalizing n with
  | nil => cases h; exact (List.append_nil _).symm
  | cons i rest ih =>
    obtain ⟨child, hchild, h⟩ := get?_cons_eq_some.1 h
    simp only [List.cons_append, above, hchild, ih h, List.append_assoc]

theorem above_last (h : n.get? location = some x) :
    ∃ inner, x.label.signal :: n.above location = inner ++ [n.label.signal] := by
  cases location with
  | nil => cases h; exact ⟨[], rfl⟩
  | cons i rest =>
    obtain ⟨child, hchild, -⟩ := get?_cons_eq_some.1 h
    exact ⟨x.label.signal :: child.above rest, by rw [above, hchild]; rfl⟩

theorem set_set (h : n.get? location = some m) (a b : Node Cell) :
    (n.set location a).set location b = n.set location b := by
  induction location generalizing n with
  | nil => rfl
  | cons i rest ih =>
    obtain ⟨child, hchild, h⟩ := get?_cons_eq_some.1 h
    obtain ⟨hi, -⟩ := List.getElem?_eq_some_iff.1 hchild
    rw [set_cons hchild, set_setChild_self hi, ih h, set_cons hchild]

end Node

namespace Session

variable {s t : Session} {K : Set Ty}

section

variable {d : Definition} {draft label : String} {scope : ScopeId}

theorem signals_renew (withBuiltins : Bool) : ((renew withBuiltins).run s).1.signals = s.signals := by
  cases withBuiltins with
  | false => rfl
  | true => rw [run_renew_true]

theorem signals_addScope (parent : ScopeId) (name : String) (kept : Option String) :
    ((addScope parent name kept).run s).1.signals = s.signals := by
  rcases addScope_cases s parent name kept with hs | ⟨id, space, -, hs⟩ <;> rw [hs]

theorem signals_addType (kept : Option String) : ((addType draft d scope kept).run s).1.signals = s.signals := by
  rcases addType_cases s draft d scope kept with ⟨hs, -⟩ | ⟨u, space, -, hs, -⟩
  · rw [hs, dropDraft]
  · rw [hs]; rfl

theorem signals_sealType : ((sealType draft d label).run s).1.signals = s.signals := by
  rcases sealType_cases s draft d label with ⟨hs, -⟩ | ⟨u, -, hs, -⟩
  · rw [hs, dropDraft]
  · rw [hs]; rfl

theorem grows_store (v : Snapshot) : s.signals.Grows (s.store label v).signals := by
  rcases v with ⟨type, _ | c⟩
  · exact s.signals.grows_fresh none
  · obtain ⟨-, hplanted⟩ := c.plant_planted s.signals.all.size (s.signals.fresh none).2
    exact (s.signals.grows_fresh none).trans hplanted.keeps.grows

end

/-- A call makes signals and moves observers, but no signal gets another parent. -/
theorem Step.extends (h : s.Invariant K) (hst : Step s t) : s.signals.Extends t.signals := by
  have same {t : Session} (hsignals : t.signals = s.signals) : s.signals.Extends t.signals :=
    hsignals ▸ (Signals.Grows.refl _).toExtends
  cases hst with
  | policy | define | keepType | drop => exact same rfl
  | renew withBuiltins => exact same (signals_renew withBuiltins)
  | addScope parent name label => exact same (signals_addScope parent name label)
  | addType hd draft scope label => exact same (signals_addType label)
  | sealType hd draft label => exact same signals_sealType
  | store hv label => exact (grows_store _).toExtends
  | change hc label walk =>
    rcases change_cases s label walk _ with ⟨hs, -⟩ | ⟨v, location, target, edit, position, hv, hreach, hstage, hs, -⟩
    · exact same (by rw [hs])
    · obtain ⟨hcarried, -⟩ := change_carried h hc hv hreach hstage
      rw [hs]
      exact hcarried.keeps.grows.toExtends
  | subscribe ht label => exact s.signals.extends_subscribe _ label
  | unsubscribe ht observer => exact s.signals.extends_unsubscribe _ observer

theorem Run.extends (h : s.Invariant K) (hst : Run s t) : s.signals.Extends t.signals := by
  induction hst with
  | refl => exact (Signals.Grows.refl _).toExtends
  | tail hrun hstep ih =>
    obtain ⟨L, hL⟩ := run_advances h hrun
    exact ih.trans (hstep.extends hL.invariant)

/-- The nodes at the location hold different content in the two sessions. -/
def Differs (s t : Session) (label : String) (location : Location) : Prop :=
  ∃ cell before after, s.At label location ⟨cell, some before⟩ ∧ t.At label location ⟨cell, some after⟩ ∧
    before.equals after = false

/-- From now on, whenever a change makes a difference at the node with the signal or below it, the observers of the
node are called, and after them those of the nodes above. -/
def Reports (s : Session) (signal : SignalId) (above : List SignalId) : Prop :=
  ∀ u, Run s u → ∀ label location below a, u.At label location a → a.label.signal = signal →
    ∀ walk target c, u.Reaches label walk (location ++ below) target → (∀ o ∈ c.operands, u.Offers o) →
      u.Differs ((change label walk c).run u).1 label (location ++ below) →
      ∃ inner, called ((change label walk c).run u).2.trace = (inner ++ signal :: above).flatMap u.signals.observers

/-- The observers called by a change that makes a difference: those further in, and then those on the way up. -/
theorem change_calls (h : s.Invariant K) {label : String} {walk : List Access} {location : Location} {c : Change}
    {target : Value} (hreach : s.Reaches label walk location target) (ho : ∀ o ∈ c.operands, s.Offers o)
    (hdiffers : s.Differs ((change label walk c).run s).1 label location) :
    ∃ inner, called ((change label walk c).run s).2.trace =
      (inner ++ target.label.signal :: s.signals.ancestors target.label.signal).flatMap s.signals.observers := by
  obtain ⟨root, hroot, hreach⟩ := hreach
  obtain ⟨cell, before, after, ⟨root', hroot', hbefore⟩, ⟨w, hw, hafter⟩, hne⟩ := hdiffers
  cases hroot.symm.trans hroot'
  have hpart := Holder.reachAll_ensures _ _ _ _ hreach
  cases hpart.symm.trans hbefore
  rcases change_cases s label walk c with ⟨hs, -⟩ | ⟨root', location', target', edit, position, hroot', hreach',
    hstage, hs, hcalled, -⟩
  · -- nothing came of the change, so the content is what it was
    rw [hs, hroot] at hw
    cases hw
    cases hbefore.symm.trans hafter
    have hself := (((h.sound.values label root hroot).part? hpart).content before rfl).fits.equals_self
    rw [hself] at hne
    cases hne
  · cases hroot.symm.trans hroot'
    cases hreach.symm.trans hreach'
    obtain ⟨hcarried, -⟩ := change_carried h ho hroot hreach hstage
    obtain ⟨after', hafter', hedit⟩ := hcarried.target before rfl
    rw [hs, Table.get?_put, if_pos rfl] at hw
    cases hw
    cases hafter.symm.trans hafter'
    rw [hcalled, hedit.called, hne]
    exact ⟨_, rfl⟩

theorem above_holder (n : Node Cell) (location : Location) : n.holder.above location = n.above location := by
  rcases n with ⟨label, content⟩; rfl

/-- Those above a node stay above it, wherever it is. -/
theorem reports_of_ancestors (h : s.Invariant K) {signal : SignalId} (hbound : signal < s.signals.all.size) :
    s.Reports signal (s.signals.ancestors signal) := by
  intro u hrun label location below a ⟨root, hroot, ha⟩ hsignal walk target c hreach ho hdiffers
  obtain ⟨L, hL⟩ := run_advances h hrun
  obtain ⟨inner, hcalled⟩ := change_calls hL.invariant hreach ho hdiffers
  have hwired := hL.invariant.wired.tree label root hroot
  obtain ⟨root', hroot', hreach⟩ := hreach
  cases hroot.symm.trans hroot'
  have hpart := Holder.reachAll_ensures _ _ _ _ hreach
  -- the part is a node of a tree, for there is content below it
  obtain ⟨n, m, rfl, rfl, hn⟩ : ∃ n m : Node Cell, root = n.holder ∧ a = m.holder ∧ n.get? location = some m := by
    rcases Holder.part?_cases ha with ⟨-, -, hnone⟩ | hnode
    · obtain ⟨cell, before, -, ⟨root', hroot', hbefore⟩, -⟩ := hdiffers
      cases hroot.symm.trans hroot'
      rcases Holder.part?_cases hbefore with ⟨-, heq, -⟩ | ⟨n, m, rfl, -, -⟩
      · rw [← heq] at hnone
        cases hnone
      · cases hnone
    · exact hnode
  have habove : n.above location = s.signals.ancestors signal := by
    rw [← (hrun.extends h).ancestors hbound, ← hsignal]
    exact ((hwired.ancestors ha).trans (above_holder n location)).symm
  have hway : u.signals.ancestors target.label.signal = m.above below ++ s.signals.ancestors signal := by
    rw [hwired.ancestors hpart, ← habove, above_holder]
    exact Node.above_append hn below
  obtain ⟨x, hx, hlabel⟩ : ∃ x, m.get? below = some x ∧ x.label = target.label := by
    rw [Node.part?_holder, Node.get?_append, hn] at hpart
    obtain ⟨x, hx, rfl⟩ := Option.map_eq_some_iff.1 hpart
    exact ⟨x, hx, rfl⟩
  obtain ⟨way, hlast⟩ := Node.above_last hx
  refine ⟨inner ++ way, ?_⟩
  have hsplit : target.label.signal :: m.above below = way ++ [signal] := by
    rw [← hlabel, hlast]
    exact congrArg (way ++ [·]) hsignal
  rw [hcalled, hway, ← List.cons_append, hsplit]
  simp

variable {label : String} {walk : List Access} {location : Location} {root v : Value} {elements : List (Node Cell)}
  {E : Ty} {i : Nat}

/-- The new element stands among the old ones, which are the nodes that they were. -/
structure Inserted (s t : Session) (label : String) (walk : List Access) (location : Location) (root v : Value)
    (elements : List (Node Cell)) (E : Ty) (i : Nat) (fresh : Node Cell) : Prop where
  elements : t.Reaches label walk location ⟨v.label, some (.array (elements.insertIdx i fresh))⟩
  type : fresh.label.type = E
  default : defaultContent E = .ok (fresh.content.relabel HasType.type)
  /-- Its nodes are none of those that were there, and nobody observes them. -/
  new : ∀ c ∈ fresh.labels, (∀ a, s.Part a → a.label.signal ≠ c.signal) ∧ t.signals.observers c.signal = []
  observers : ∀ id, t.signals.observers id = s.signals.observers id
  reports : t.Reports fresh.label.signal (v.label.signal :: root.above location)

/-- What can be done to the elements of an array, and what comes of it. -/
structure ArrayEdits (s : Session) (label : String) (walk : List Access) (location : Location) (root v : Value)
    (elements : List (Node Cell)) (E : Ty) : Prop where
  inserts : ∀ i, (∃ position, ((change label walk (.insertDefault i)).run s).2.outcome = .ok position) ↔
    i ≤ elements.length ∧ E.HasDefault
  inserted : ∀ i ≤ elements.length, E.HasDefault → ∃ fresh,
    Inserted s ((change label walk (.insertDefault i)).run s).1 label walk location root v elements E i fresh
  removes : ∀ i, (∃ position, ((change label walk (.remove i)).run s).2.outcome = .ok position) ↔ i < elements.length
  removed : ∀ i < elements.length, ∃ t, ((change label walk (.remove i)).run s).1 = t ∧
    t.Reaches label walk location ⟨v.label, some (.array (elements.eraseIdx i))⟩ ∧
    ∀ id, t.signals.observers id = s.signals.observers id
  /-- Removing what was inserted gives the value back, node by node. -/
  restored : ∀ i ≤ elements.length, E.HasDefault → ∃ t r,
    (change label walk (.remove i)).run ((change label walk (.insertDefault i)).run s).1 = (t, r) ∧
    r.outcome = .ok none ∧ t.values.get? label = some root ∧ t.Reaches label walk location v ∧ (v.isEqual v).Gives true
  /-- Pushing leaves the session and the events of inserting at the end, and gives the position. -/
  pushes : (change label walk .pushDefault).run s =
    match (change label walk (.insertDefault elements.length)).run s with
    | (t, ⟨trace, .ok _⟩) => (t, ⟨trace, .ok (some elements.length)⟩)
    | (t, ⟨trace, .error e⟩) => (t, ⟨trace, .error e⟩)
    | (t, ⟨trace, .panic e⟩) => (t, ⟨trace, .panic e⟩)

theorem push_run (hroot : s.values.get? label = some root)
    (hreach : ((root.reachAll walk).run s.policy).outcome = .ok (location, v))
    (hc : v.content = some (.array elements)) : (change label walk .pushDefault).run s =
    match (change label walk (.insertDefault elements.length)).run s with
    | (t, ⟨trace, .ok _⟩) => (t, ⟨trace, .ok (some elements.length)⟩)
    | (t, ⟨trace, .error e⟩) => (t, ⟨trace, .error e⟩)
    | (t, ⟨trace, .panic e⟩) => (t, ⟨trace, .panic e⟩) := by
  rw [run_change hroot, run_change hroot, prepare, prepare, Attempt.run_bind, Attempt.run_bind,
    Result.andThen_of_ok hreach, Result.andThen_of_ok hreach]
  rcases hstage : (v.stageChange (.insertDefault elements.length)).run s.policy with
    ⟨trace, ⟨edit, position⟩ | e | e⟩
  all_goals
    have hpush := congrArg (Attempt.run · s.policy) (Holder.stagePush_eq hc)
    simp only [Attempt.run_bind, hstage, Result.andThen, Attempt.run_pure, List.append_nil] at hpush
    simp only [Attempt.run_bind, Attempt.toStray, Attempt.mapError, hstage, hpush, Result.mapError,
      Result.andThen, Attempt.run_pure]

section

variable {n m : Node Cell} {c : Change} {edit : Edit} {position : Option Nat}

/-- A staged change puts the content that the edit makes in its place. -/
theorem change_at (hroot : s.values.get? label = some n.holder)
    (hreach : ((n.holder.reachAll walk).run s.policy).outcome = .ok (location, m.holder))
    (hstage : ((m.holder.stageChange c).run s.policy).outcome = .ok (edit, position)) (after : Content Cell)
    (hafter : (edit.commit m.label (some m.content) s.signals).tree = some after) :
    ∃ t r, (change label walk c).run s = (t, r) ∧ r.outcome = .ok position ∧ t.policy = s.policy ∧
      t.signals = (edit.commit m.label (some m.content) s.signals).signals ∧
      t.values.get? label = some (n.set location ⟨m.label, after⟩).holder ∧
      ((((n.set location ⟨m.label, after⟩).holder).reachAll walk).run t.policy).outcome =
        .ok (location, ⟨m.label, some after⟩) := by
  have hget := Node.get?_of_part? (Holder.reachAll_ensures _ _ _ _ hreach)
  rcases change_cases s label walk c with ⟨-, -, -, hrefused⟩ |
    ⟨root, location', target, edit', position', hroot', hreach', hstage', hs, -, hok⟩
  · exact absurd hstage (hrefused _ _ _ hroot hreach _)
  · cases hroot.symm.trans hroot'
    cases hreach.symm.trans hreach'
    cases hstage.symm.trans hstage'
    rw [Holder.commit_node hget hafter] at hs
    refine ⟨((change label walk c).run s).1, ((change label walk c).run s).2, rfl, hok, ?_⟩
    rw [hs]
    exact ⟨rfl, rfl, by rw [Table.get?_put, if_pos rfl], Holder.reachAll_set hreach rfl⟩

theorem plant_new (E : Ty) (d : Content Ty) (parent : SignalId) (s : Signals) : ∃ fresh t,
    (⟨E, d⟩ : Node Ty).plant parent s = (fresh, t) ∧ s.Grows t ∧ fresh.label.type = E ∧
      fresh.content.relabel HasType.type = d ∧ (∀ c ∈ fresh.labels, s.all.size ≤ c.signal) ∧
      (parent < s.all.size → fresh.Linked t parent) := by
  obtain ⟨hkeeps, -, hlinked⟩ := Node.planted ⟨E, d⟩ parent s
  have htree := Node.relabel_plant ⟨E, d⟩ parent s
  refine ⟨_, _, rfl, hkeeps.grows, ?_, ?_, fun c => Node.size_le_of_mem_plant ⟨E, d⟩ parent s,
    fun hlt => hlinked hlt _ List.mem_cons_self⟩
  · exact (Node.label_relabel _ _).symm.trans (congrArg Node.label htree)
  · exact (Node.content_relabel _ _).symm.trans (congrArg Node.content htree)

theorem insert_staged (hm : m.content = .array elements) (hs : m.label.type.shape = .array (some E)) {d : Content Ty}
    (hdefault : defaultContent E = .ok d) (hi : i ≤ elements.length) (p : Policy) :
    ((m.holder.stageChange (.insertDefault i)).run p).outcome = .ok (.insert i ⟨E, d⟩, none) := by
  have hcontent : m.holder.content = some (.array elements) := congrArg some hm
  exact Attempt.bind_pure_eq_ok.2 ⟨_, (Holder.stageInsert_eq_ok hcontent hs).2 ⟨hi, d, hdefault, rfl⟩, rfl⟩

theorem inserted (h : s.Reachable) (hroot : s.values.get? label = some n.holder)
    (hreach : ((n.holder.reachAll walk).run s.policy).outcome = .ok (location, m.holder))
    (hm : m.content = .array elements) (hs : m.label.type.shape = .array (some E)) (hE : E.HasDefault)
    (hi : i ≤ elements.length) : ∃ fresh, Inserted s ((change label walk (.insertDefault i)).run s).1 label walk
      location n.holder m.holder elements E i fresh := by
  obtain ⟨K, hK⟩ := h.invariant
  obtain ⟨d, hdefault⟩ := defaultContent_isOk_iff.2 hE
  have hwired := hK.wired.tree label _ hroot
  have hpart := Holder.reachAll_ensures _ _ _ _ hreach
  have hbound : m.label.signal < s.signals.all.size := hK.wired.bound hroot hpart
  obtain ⟨fresh, signals, hplant, hgrows, htype, hcontent, hnew, hlinked⟩ := plant_new E d m.label.signal s.signals
  obtain ⟨t, r, hrun, -, -, hsignals, hroot', hreach'⟩ := change_at hroot hreach
    (insert_staged hm hs hdefault hi s.policy) (.array (elements.insertIdx i fresh))
    (by rw [hm, Edit.commit, hplant]; rfl)
  obtain rfl : signals = t.signals := by rw [hsignals, hm, Edit.commit, hplant]
  have ht : t.Reachable := by
    have hstep := h.step (.change (c := .insertDefault i) (fun o ho => by cases ho) label walk)
    rwa [hrun] at hstep
  obtain ⟨L, hL⟩ := ht.invariant
  rw [hrun]
  refine ⟨fresh, ⟨⟨_, hroot', hreach'⟩, htype, hcontent ▸ hdefault, fun c hc => ⟨?_, ?_⟩, hgrows.observers, ?_⟩⟩
  · rintro a ⟨label', root', location', hroot'', ha⟩
    exact ((hK.wired.bound hroot'' ha).trans_le (hnew c hc)).ne
  · rw [hgrows.observers, Signals.observers, Array.getElem?_eq_none (hnew c hc)]
  · have habove : t.signals.ancestors fresh.label.signal = m.label.signal :: n.holder.above location := by
      rw [(hlinked hbound).ancestors, hgrows.ancestors hbound]
      exact congrArg (m.label.signal :: ·) (hwired.ancestors hpart)
    have hreports := reports_of_ancestors hL (hlinked hbound).bound
    rwa [habove] at hreports

theorem restored (h : s.Invariant K) (hroot : s.values.get? label = some n.holder)
    (hreach : ((n.holder.reachAll walk).run s.policy).outcome = .ok (location, m.holder))
    (hm : m.content = .array elements) (hs : m.label.type.shape = .array (some E)) (hE : E.HasDefault)
    (hi : i ≤ elements.length) : ∃ t r,
    (change label walk (.remove i)).run ((change label walk (.insertDefault i)).run s).1 = (t, r) ∧
    r.outcome = .ok none ∧ t.values.get? label = some n.holder ∧ t.Reaches label walk location m.holder ∧
    (m.holder.isEqual m.holder).Gives true := by
  obtain ⟨d, hdefault⟩ := defaultContent_isOk_iff.2 hE
  have hget := Node.get?_of_part? (Holder.reachAll_ensures _ _ _ _ hreach)
  obtain ⟨fresh, signals, hplant, -⟩ := plant_new E d m.label.signal s.signals
  obtain ⟨t, r, hrun, -, -, -, hroot', hreach'⟩ := change_at hroot hreach
    (insert_staged hm hs hdefault hi s.policy) (.array (elements.insertIdx i fresh))
    (by rw [hm, Edit.commit, hplant]; rfl)
  have hstage : (((⟨m.label, .array (elements.insertIdx i fresh)⟩ : Node Cell).holder.stageChange (.remove i)).run
      t.policy).outcome = .ok (.remove i, none) := by
    refine (Holder.stageRemove_eq_ok rfl).2 ⟨?_, rfl⟩
    rw [List.length_insertIdx_of_le_length hi]
    exact Nat.lt_succ_of_le hi
  obtain ⟨t', r', hrun', hok, -, -, hroot'', hreach''⟩ := change_at hroot' hreach' hstage
    m.content (by rw [hm, Edit.commit, Edit.mapElements, List.eraseIdx_insertIdx_self])
  have hback : (n.set location ⟨m.label, .array (elements.insertIdx i fresh)⟩).set location ⟨m.label, m.content⟩ =
      n := by
    rw [Node.set_set hget]
    rcases m with ⟨cell, content⟩
    exact Node.set_get? hget
  rw [hback] at hroot'' hreach''
  rw [hrun]
  refine ⟨t', r', hrun', hok, hroot'', ⟨_, hroot'', hreach''⟩, Holder.isEqual_gives_true.2
    ⟨_, _, rfl, rfl, Ty.compatible_refl _, ?_⟩⟩
  exact ((h.sound.typed_root hroot).get? hget).content.fits.equals_self

theorem removed (hroot : s.values.get? label = some n.holder)
    (hreach : ((n.holder.reachAll walk).run s.policy).outcome = .ok (location, m.holder))
    (hm : m.content = .array elements) (hi : i < elements.length) :
    ∃ t, ((change label walk (.remove i)).run s).1 = t ∧
      t.Reaches label walk location ⟨m.label, some (.array (elements.eraseIdx i))⟩ ∧
      ∀ id, t.signals.observers id = s.signals.observers id := by
  have hcontent : m.holder.content = some (.array elements) := congrArg some hm
  obtain ⟨t, r, hrun, -, -, hsignals, hroot', hreach'⟩ := change_at hroot hreach
    ((Holder.stageRemove_eq_ok hcontent).2 ⟨hi, rfl⟩) (.array (elements.eraseIdx i)) (by rw [hm]; rfl)
  rw [hrun]
  exact ⟨t, rfl, ⟨_, hroot', hreach'⟩, fun id => by rw [hsignals]; rfl⟩

end

/-- Whether the elements of an array are edited is a matter of positions and of the default alone, and what comes
of it is the list with one element more or less. A new element is observed through the array from then on. -/
theorem array_edits (h : s.Reachable) (hroot : s.values.get? label = some root)
    (hreach : ((root.reachAll walk).run s.policy).outcome = .ok (location, v))
    (hc : v.content = some (.array elements)) : ∃ E, v.type.shape = .array (some E) ∧
    s.ArrayEdits label walk location root v elements E := by
  obtain ⟨K, hK⟩ := h.invariant
  obtain ⟨n, m, rfl, hroot', hreach'⟩ := Reaches.node ⟨root, hroot, hreach⟩ (by rw [Holder.isConstructed, hc]; rfl)
  cases hroot.symm.trans hroot'
  have hm : m.content = .array elements := Option.some.inj hc
  have hfits := ((hK.sound.typed_root hroot).get?
    (Node.get?_of_part? (Holder.reachAll_ensures _ _ _ _ hreach))).content.fits
  rw [hm] at hfits
  cases hfits with
  | @array _ E _ hs =>
    refine ⟨E, hs, ⟨fun i => ?_, fun i hi hE => inserted h hroot hreach hm hs hE hi, fun i => ?_,
      fun i hi => removed hroot hreach hm hi, fun i hi hE => restored hK hroot hreach hm hs hE hi,
      push_run hroot hreach hc⟩⟩
    · constructor
      · rintro ⟨position, hok⟩
        obtain ⟨edit, hstage⟩ := staged_of_change hroot hreach hok
        obtain ⟨e, he, -⟩ := Attempt.bind_pure_eq_ok.1 hstage
        obtain ⟨hi, d, hdefault, -⟩ := (Holder.stageInsert_eq_ok hc hs).1 he
        exact ⟨hi, defaultContent_isOk_iff.1 ⟨d, hdefault⟩⟩
      · rintro ⟨hi, hE⟩
        obtain ⟨d, hdefault⟩ := defaultContent_isOk_iff.2 hE
        exact ⟨none, by rw [outcome_change hroot hreach, insert_staged hm hs hdefault hi]⟩
    · constructor
      · rintro ⟨position, hok⟩
        obtain ⟨edit, hstage⟩ := staged_of_change hroot hreach hok
        exact ((Holder.stageRemove_eq_ok hc).1 hstage).1
      · intro hi
        exact ⟨none, by rw [outcome_change hroot hreach, (Holder.stageRemove_eq_ok hc).2 ⟨hi, rfl⟩]⟩

/-- Two bells on a porch, of which one rings, and a visitor who listens to them. -/
def bells : Definition := { Definition.fresh "bells" (.array none) with shape := .array (some boolType) }

def bellsType : Ty := bells.withIdentity lit.nextIdentity

def porchBells : List (Node Cell) := [⟨⟨boolType, 3⟩, .bool true⟩, ⟨⟨boolType, 4⟩, .bool false⟩]

def porch : Value := ⟨⟨bellsType, 2⟩, some (.array porchBells)⟩

def rung : Change := .construct [⟨none, .operand (.literal (.list [.bool true, .bool false]))⟩]

def hung : Session :=
  let known := ((sealType "bells" bells "bells").run lit).1
  ((change "porch" [] rung).run (known.create "porch" bellsType)).1.subscribe porch "visitor"

theorem hung_reachable : hung.Reachable := by
  have hbool : lit.Knows boolType := by
    have hzero : lit.space.type? 0 = some boolType := by rfl
    exact .registered hzero
  have hbuilds : lit.Builds bells :=
    builds_template "bells" (.array none) rfl [boolType] (by simpa using hbool) (by rfl)
  have hknown := lit_reachable.sealType hbuilds "bells"
  generalize hrun : ((sealType "bells" bells "bells").run lit).1 = known at hknown
  have hbells : known.types.get? "bells" = some bellsType := by subst hrun; rfl
  have hmade := hknown.make (.kept hbells) "porch" rung fun o ho => by
    rw [List.mem_singleton.1 ho]
    exact trivial
  subst hrun
  exact hmade.step (.subscribe ⟨"porch", porch, [], by rfl, rfl⟩ "visitor")

/-- A bell goes between the two, and when it rings the visitor hears it. There is no place for a fourth one. -/
theorem array_edits_hung : hung.Reachable ∧ hung.values.get? "porch" = some porch ∧
    (∃ fresh, Inserted hung ((change "porch" [] (.insertDefault 1)).run hung).1 "porch" [] [] porch porch porchBells
      boolType 1 fresh) ∧
    called ((change "porch" [.element 1] (.set (.bool true))).run
      ((change "porch" [] (.insertDefault 1)).run hung).1).2.trace = [⟨3, "visitor"⟩] ∧
    ¬ ∃ position, ((change "porch" [] (.insertDefault 3)).run hung).2.outcome = .ok position := by
  have hporch : hung.values.get? "porch" = some porch := by rfl
  have hreach : ((porch.reachAll []).run hung.policy).outcome = .ok ([], porch) := by rfl
  obtain ⟨E, hshape, hedits⟩ := array_edits hung_reachable hporch hreach rfl
  cases hshape
  refine ⟨hung_reachable, hporch, hedits.inserted 1 (by decide) (.plain nofun nofun nofun), by decide +kernel, ?_⟩
  rw [hedits.inserts]
  exact fun ⟨hle, _⟩ => absurd hle (by decide)

end Session

end TypedValues
