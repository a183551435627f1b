import TypedValues.Proofs.Atomicity
import TypedValues.Proofs.Merge
import TypedValues.Proofs.Place
import Mathlib.Data.List.Flatten

/-! Carrying an edit out. An edit that applies is carried out in full: the content is typed again, the
tree stays linked, every cell is an old one or new, and the observers called are told by the contents
before and after. -/

namespace TypedValues

namespace Signals

theorem ancestors_lt (s : Signals) (id : SignalId) : ∀ p ∈ s.ancestors id, p < id := by
  induction id using Nat.strongRecOn with
  | ind id ih =>
    intro p hp
    rw [ancestors] at hp
    split at hp
    next q _ =>
      split at hp
      next hq =>
        rcases List.mem_cons.1 hp with rfl | hp
        · exact hq
        · exact (ih q hq p hp).trans hq
      next => cases hp
    next => cases hp

theorem ancestors_nodup (s : Signals) (id : SignalId) : (s.ancestors id).Nodup := by
  induction id using Nat.strongRecOn with
  | ind id ih =>
    rw [ancestors]
    split
    next q _ =>
      split
      next hq =>
        exact List.nodup_cons.2 ⟨fun hmem => (s.ancestors_lt q q hmem).false, ih q hq⟩
      next => exact List.nodup_nil
    next => exact List.nodup_nil

/-- No signal that exists gets another parent, so the way up stays as well. -/
theorem Extends.ancestors {s t : Signals} (h : s.Extends t) {id : SignalId} (hid : id < s.all.size) :
    t.ancestors id = s.ancestors id := by
  induction id using Nat.strongRecOn with
  | ind id ih =>
    rw [Signals.ancestors, Signals.ancestors, h.parent id hid]
    cases s.parent? id with
    | none => rfl
    | some p =>
      by_cases hp : p < id
      · simp only [if_pos hp, ih p hp (hp.trans hid)]
      · simp only [if_neg hp]

theorem Grows.calls {s t : Signals} (h : s.Grows t) {id : SignalId} (hid : id < s.all.size) :
    t.calls id = (id :: s.ancestors id).flatMap s.observers := by
  rw [Signals.calls, h.ancestors hid, h.observers, funext h.observers]; rfl

end Signals

theorem Node.changedAll_of_equals {as bs : List (Node Cell)}
    (ih : ∀ a ∈ as, ∀ d : Content Cell, a.content.equals d = true → a.content.changedBelow d = [])
    (h : Node.equalsAll as bs = true) : Node.changedAll as bs = [] := by
  induction as generalizing bs with
  | nil => rw [changedAll]; simp
  | cons a as iha =>
    cases bs with
    | nil => rfl
    | cons b bs =>
      rw [equalsAll, Bool.and_eq_true, equals_eq] at h
      rw [List.forall_mem_cons] at ih
      rw [changedAll, changedWithin_eq, ih.1 _ h.1, iha ih.2 h.2, h.1]
      rfl

theorem Content.changedBelow_of_equals {c d : Content Cell} (h : c.equals d = true) :
    c.changedBelow d = [] := by
  induction c using Content.inductOn generalizing d with
  | step c ih =>
    have one {a b : Node Cell} (ha : a ∈ c.children) (hab : a.equals b = true) :
        a.changedWithin b = [] := by
      rw [Node.equals_eq] at hab
      rw [Node.changedWithin_eq, ih a ha hab, hab]
      rfl
    cases c with
    | optional a =>
      cases a with
      | none => exact changedBelow_of_children rfl d
      | some a =>
        rcases d with _ | _ | _ | _ | _ | (_ | b) | _ | _ | _ <;> try rfl
        exact one List.mem_cons_self h
    | variant i a =>
      rcases d with _ | _ | _ | _ | _ | (_ | _) | ⟨j, b⟩ | _ | _ <;> try rfl
      rw [equals, Bool.and_eq_true] at h
      rw [changedBelow]
      split
      · exact one List.mem_cons_self h.2
      · rfl
    | struct as =>
      rcases d with _ | _ | _ | _ | _ | (_ | _) | _ | bs | _ <;> try rfl
      exact Node.changedAll_of_equals ih h
    | array as =>
      rcases d with _ | _ | _ | _ | _ | (_ | _) | _ | _ | bs <;> try rfl
      exact Node.changedAll_of_equals ih h
    | _ => exact changedBelow_of_children rfl d

variable {K : Set Ty} {next : Nat}

/-- The signals of the nodes below that stay and differ. An edit of elements leaves the others as they
are. -/
def Edit.below (e : Edit) (before after : Content Cell) : List SignalId :=
  if e.movesElements then [] else before.changedBelow after

/-- What an edit comes to at a node with content. -/
structure Edit.Carried (K : Set Ty) (e : Edit) (cell : Cell) (before : Content Cell) (s : Signals)
    (after : Content Cell) (t : Signals) (events : List Event) : Prop where
  typed : after.Typed K cell.type
  keeps : s.Keeps before.labels after.labels t
  linked : before.Linked s cell.signal → after.Linked t cell.signal
  replaced : ∀ staged, e = .replace staged → after.equals staged = true
  survive : e.below before after ⊆ after.labels.map Cell.signal
  called : Session.called events = if before.equals after then []
    else (e.below before after ++ cell.signal :: s.ancestors cell.signal).flatMap s.observers

theorem Session.called_notifications (called : List Observer) :
    Session.called (notifications called) = called := by
  rw [Session.called, notifications, List.filterMap_map]
  exact List.filterMap_some

theorem Edit.called_announce {s t : Signals} (h : s.Grows t) {cell : Cell}
    (hcell : cell.signal < s.all.size) {e : Event} (he : e.observer? = none) :
    Session.called (announce cell e t) =
      (cell.signal :: s.ancestors cell.signal).flatMap s.observers := by
  rw [announce, Session.called, List.filterMap_cons_none he]
  exact (Session.called_notifications _).trans (h.calls hcell)

namespace Edit

variable {cell : Cell} {before : Content Cell} {s : Signals}

theorem replace_carried (hK : Catalog K next) {staged : Content Ty}
    (hbefore : before.Typed K cell.type) (hstaged : staged.Typed K cell.type)
    (hcell : cell.signal < s.all.size) :
    ∃ after, ((Edit.replace staged).commit cell (some before) s).tree = some after ∧
      (Edit.replace staged).Carried K cell before s after
        ((Edit.replace staged).commit cell (some before) s).signals
        ((Edit.replace staged).commit cell (some before) s).events := by
  have halike := hbefore.alike hK hstaged
  have hmerge := halike.merges cell.signal s
  refine ⟨_, rfl, halike.merge_typed hK hbefore hstaged _ _, hmerge.keeps, hmerge.linked hcell,
    fun d hd => by cases hd; exact hmerge.equal, hmerge.survive, ?_⟩
  have hchanged := hmerge.changed_iff
  simp only [commit]
  generalize before.merge cell.signal staged s = m at hmerge hchanged
  rw [Session.called_append, Session.called_notifications, hmerge.called]
  cases hequal : before.equals m.tree with
  | true =>
    rw [hequal] at hchanged
    rw [hchanged, Content.changedBelow_of_equals hequal]
    rfl
  | false =>
    rw [hequal] at hchanged
    rw [hchanged, if_pos (by rfl), called_announce hmerge.keeps.grows hcell rfl]
    simp [below, movesElements]

theorem labelsAll_insertIdx {α : Type} {ns : List (Node α)} {i : Nat} (hi : i ≤ ns.length) :
    ∃ pre post, Node.labelsAll ns = pre ++ post ∧
      ∀ n : Node α, Node.labelsAll (ns.insertIdx i n) = pre ++ (n.labels ++ post) := by
  induction ns generalizing i with
  | nil =>
    obtain rfl : i = 0 := Nat.le_zero.1 hi
    exact ⟨[], [], rfl, fun n => by simp [Node.labelsAll]⟩
  | cons m ns ih =>
    cases i with
    | zero => exact ⟨[], Node.labelsAll (m :: ns), rfl, fun n => by simp [Node.labelsAll]⟩
    | succ i =>
      obtain ⟨pre, post, hold, hnew⟩ := ih (Nat.le_of_succ_le_succ hi)
      exact ⟨m.labels ++ pre, post, by simp [Node.labelsAll, hold],
        fun n => by simp [Node.labelsAll, hnew]⟩

theorem equals_array_of_length {as bs : List (Node Cell)} (h : as.length ≠ bs.length) :
    (Content.array as).equals (Content.array bs) = false := by
  rw [Content.equals]
  induction as generalizing bs with
  | nil =>
    cases bs with
    | nil => exact absurd rfl h
    | cons b bs => rfl
  | cons a as ih =>
    cases bs with
    | nil => rfl
    | cons b bs =>
      rw [Node.equalsAll, ih fun hl => h (congrArg Nat.succ hl), Bool.and_false]

theorem insert_carried {elements : List (Node Cell)} {i : Nat} {element : Node Ty} {u : Ty}
    (hbefore : (Content.array elements).Typed K cell.type) (hi : i ≤ elements.length)
    (hshape : cell.type.shape = .array (some u)) (helement : element.Suits K u)
    (hcell : cell.signal < s.all.size) :
    ∃ after, ((Edit.insert i element).commit cell (some (.array elements)) s).tree = some after ∧
      (Edit.insert i element).Carried K cell (.array elements) s after
        ((Edit.insert i element).commit cell (some (.array elements)) s).signals
        ((Edit.insert i element).commit cell (some (.array elements)) s).events := by
  have hplanted := element.planted cell.signal s
  have hsuits := Node.plant_suits helement cell.signal s
  simp only [commit]
  generalize element.plant cell.signal s = p at hplanted hsuits
  refine ⟨_, rfl, ?_, ?_, ?_, by simp, List.nil_subset _, ?_⟩
  · refine .array hshape fun n hn => ?_
    rcases (List.mem_insertIdx hi).1 hn with rfl | hn
    · exact hsuits
    · exact hbefore.suits_of_array hshape n hn
  · obtain ⟨pre, post, hold, hnew⟩ := labelsAll_insertIdx hi
    have hkeeps := hplanted.keeps.frame pre post
    rw [Node.labelsAll_eq, List.flatMap_singleton, List.nil_append, ← hold, ← hnew] at hkeeps
    exact hkeeps
  · intro hlinked n hn
    rcases (List.mem_insertIdx hi).1 hn with rfl | hn
    · exact hplanted.linked hcell _ List.mem_cons_self
    · exact (hlinked n hn).mono hplanted.keeps.grows.toExtends
  · have hlength : elements.length ≠ (elements.insertIdx i p.1).length := by
      rw [List.length_insertIdx_of_le_length hi]; omega
    rw [called_announce hplanted.keeps.grows hcell rfl, equals_array_of_length hlength]
    simp [below, movesElements]

theorem remove_carried {elements : List (Node Cell)} {i : Nat}
    (hbefore : (Content.array elements).Typed K cell.type) (hi : i < elements.length)
    (hcell : cell.signal < s.all.size) :
    ∃ after, ((Edit.remove i).commit cell (some (.array elements)) s).tree = some after ∧
      (Edit.remove i).Carried K cell (.array elements) s after
        ((Edit.remove i).commit cell (some (.array elements)) s).signals
        ((Edit.remove i).commit cell (some (.array elements)) s).events := by
  have hsub := List.eraseIdx_sublist elements i
  refine ⟨_, rfl, ?_, ?_, fun hlinked n hn => hlinked n (hsub.subset hn), by simp,
    List.nil_subset _, ?_⟩
  · cases hbefore.fits with
    | array shape =>
      exact .array shape fun n hn => hbefore.suits_of_array shape n (hsub.subset hn)
  · refine (Signals.Keeps.refl s _).of_sublist ?_
    rw [Content.labels, Content.labels, Node.labelsAll_eq, Node.labelsAll_eq]
    exact hsub.flatMap _
  · have hlength : elements.length ≠ (elements.eraseIdx i).length := by
      rw [List.length_eraseIdx_of_lt hi]; omega
    simp only [commit]
    rw [called_announce (.refl s) hcell rfl, equals_array_of_length hlength]
    simp [below, movesElements]

/-- Every edit of a node with content is carried out. -/
theorem commit_carried (hK : Catalog K next) {e : Edit} (happlies : e.Applies (some before))
    (hbefore : before.Typed K cell.type) (he : e.Typed K cell.type) (hcell : cell.signal < s.all.size) :
    ∃ after, (e.commit cell (some before) s).tree = some after ∧
      e.Carried K cell before s after (e.commit cell (some before) s).signals
        (e.commit cell (some before) s).events := by
  cases e with
  | install c => cases happlies
  | replace staged => exact replace_carried hK hbefore he hcell
  | insert i element =>
    obtain ⟨elements, heq, hi⟩ := happlies
    obtain ⟨u, hshape, helement⟩ := he
    cases heq
    exact insert_carried hbefore hi hshape helement hcell
  | remove i =>
    obtain ⟨elements, heq, hi⟩ := happlies
    cases heq
    exact remove_carried hbefore hi hcell
  | keep =>
    have hself := hbefore.fits.equals_self
    refine ⟨before, rfl, hbefore, .refl s _, id, by simp, ?_, ?_⟩
    · rw [below, Content.changedBelow_of_equals hself, ite_self]
      exact List.nil_subset _
    · rw [hself]
      rfl

end Edit

namespace Holder

def cells (v : Value) : List Cell :=
  match v.content with
  | none => [v.label]
  | some c => v.label :: c.labels

/-- The signals of a value form the tree that its nodes form, and each is used once. -/
structure Wired (s : Signals) (v : Value) : Prop where
  root : s.parent? v.label.signal = none
  linked : ∀ c, v.content = some c → c.Linked s v.label.signal
  holds : s.Holds v.cells

/-- What an edit at the location of `target` does to a value. -/
structure Carried (K : Set Ty) (e : Edit) (v : Value) (location : Location) (target : Value)
    (s : Signals) (d : Committed Value) : Prop where
  label : d.tree.label = v.label
  typed : d.tree.Typed K
  wired : d.tree.Wired d.signals
  keeps : s.Keeps v.cells d.tree.cells d.signals
  constructed : v.isConstructed → d.tree.isConstructed
  target : ∀ before, target.content = some before → ∃ after,
    d.tree.part? location = some ⟨target.label, some after⟩ ∧
      e.Carried K target.label before s after d.signals d.events

theorem label_mem_cells (v : Value) : v.label ∈ v.cells := by
  unfold cells; split <;> exact List.mem_cons_self

theorem cells_holder (n : Node Cell) : n.holder.cells = n.labels := (Node.labels_eq n).symm

theorem part?_cells {v a : Value} {location : Location} (h : v.part? location = some a) :
    a.cells.Sublist v.cells := by
  rcases part?_cases h with ⟨-, rfl, -⟩ | ⟨n, m, rfl, rfl, hm⟩
  · exact .refl _
  · obtain ⟨pre, post, hlabels, -⟩ := Node.labels_set hm
    rw [cells_holder, cells_holder, hlabels]
    exact (List.sublist_append_left ..).trans (List.sublist_append_right ..)

theorem part?_label_mem {v a : Value} {location : Location} (h : v.part? location = some a) :
    a.label ∈ v.cells := (part?_cells h).subset a.label_mem_cells

theorem commit_node {n old : Node Cell} {location : Location} (h : n.get? location = some old)
    {e : Edit} {s : Signals} {after : Content Cell}
    (hafter : (e.commit old.label (some old.content) s).tree = some after) :
    commit n.holder location e s = ⟨(n.set location ⟨old.label, after⟩).holder,
      (e.commit old.label (some old.content) s).signals,
      (e.commit old.label (some old.content) s).events⟩ := by
  cases location with
  | nil =>
    cases h
    simp [commit, Node.holder, Node.set, hafter]
  | cons i rest =>
    rcases n with ⟨label, content⟩
    simp [commit, Node.holder, h, hafter]

theorem install_carried {s : Signals} {v : Value} (hv : v.Typed K) (hw : v.Wired s)
    (hnone : v.content = none) {c : Content Ty} (hc : c.Typed K v.type) :
    Carried K (.install c) v [] v s (v.commit [] (.install c) s) := by
  rcases v with ⟨cell, content⟩
  cases hnone
  obtain ⟨-, hplanted⟩ := c.plant_planted cell.signal s
  have hcell := hw.holds.bound cell (label_mem_cells _)
  have hkeeps : s.Keeps [cell] (cell :: (c.plant cell.signal s).1.labels) (c.plant cell.signal s).2 := by
    rw [Content.labels_eq, ← Node.labelsAll_eq]
    exact (Signals.Keeps.refl s [cell]).append hplanted.keeps
  refine ⟨rfl, ⟨hv.type, ?_⟩, ⟨?_, ?_, hkeeps.holds hw.holds⟩, hkeeps, fun _ => rfl, by simp⟩
  · intro d hd
    cases hd
    exact Content.plant_typed hc cell.signal s
  · exact (hplanted.keeps.grows.parent _ hcell).trans hw.root
  · intro d hd
    cases hd
    exact hplanted.linked hcell

theorem edit_carried (hK : Catalog K next) {s : Signals} {n old : Node Cell} {location : Location}
    {e : Edit} (hn : n.Typed K) (hw : n.holder.Wired s) (ht : n.get? location = some old)
    (happlies : e.Applies (some old.content)) (he : e.Typed K old.type) :
    Carried K e n.holder location old.holder s (n.holder.commit location e s) := by
  obtain ⟨pre, post, hlabels, hset⟩ := Node.labels_set ht
  have hcell : old.label.signal < s.all.size := by
    refine hw.holds.bound _ ?_
    rw [cells_holder, hlabels, Node.labels_eq]
    exact List.mem_append_right _ (List.mem_append_left _ List.mem_cons_self)
  obtain ⟨after, hafter, hcarried⟩ :=
    Edit.commit_carried (s := s) hK happlies (hn.get? ht).content he hcell
  have hkeeps : s.Keeps n.holder.cells (n.set location ⟨old.label, after⟩).holder.cells
      (e.commit old.label (some old.content) s).signals := by
    rw [cells_holder, cells_holder, hlabels, hset]
    refine Signals.Keeps.frame ?_ pre post
    rw [Node.labels_eq, Node.labels_eq]
    exact (Signals.Keeps.refl s [old.label]).append hcarried.keeps
  have hold := Node.linked_get? ht (hw.linked _ rfl)
  obtain ⟨hlabel, hlinked⟩ := Node.linked_set ht ⟨old.label, after⟩ (hw.linked _ rfl)
    hkeeps.grows.toExtends rfl (hcarried.linked hold)
  have hnew : (⟨old.label, after⟩ : Node Cell).Typed K :=
    Node.typed_mk (hn.get? ht).type_mem hcarried.typed
  rw [commit_node ht hafter]
  refine ⟨hlabel, (hn.set ht ⟨old.label, after⟩ rfl hnew).2.holder,
    ⟨?_, ?_, hkeeps.holds hw.holds⟩, hkeeps, fun _ => rfl, ?_⟩
  · rw [show (n.set location ⟨old.label, after⟩).holder.label = n.label from hlabel]
    exact (hkeeps.grows.parent _ (hw.holds.bound _ (label_mem_cells n.holder))).trans hw.root
  · intro c hc
    cases hc
    rw [← hlabel] at hlinked
    exact hlinked
  · intro before hbefore
    cases hbefore
    refine ⟨after, ?_, hcarried⟩
    rw [Node.part?_holder, Node.get?_set ht]
    rfl

/-- Every edit that applies at a place of a value is carried out there. -/
theorem commit_carried (hK : Catalog K next) {s : Signals} {v target : Value} {location : Location}
    {e : Edit} (hv : v.Typed K) (hw : v.Wired s) (ht : v.part? location = some target)
    (happlies : e.Applies target.content) (he : e.Typed K target.type) :
    Carried K e v location target s (v.commit location e s) := by
  rcases part?_cases ht with ⟨rfl, rfl, hnone⟩ | ⟨n, old, rfl, rfl, hold⟩
  · rw [hnone] at happlies
    cases e with
    | install c => exact install_carried hv hw hnone he
    | replace _ | keep => cases happlies
    | insert _ _ | remove _ => obtain ⟨_, h, -⟩ := happlies; cases h
  · have hn : n.Typed K := Node.typed_mk hv.type (hv.content n.content rfl)
    exact edit_carried hK hn hw hold happlies he

end Holder

end TypedValues
