import TypedValues.Proofs.Invariant
import Mathlib.Data.List.Perm.Subperm

/-! Notification. A successful change calls nobody if the content came out equal. Otherwise it calls
the observers of the nodes below that stay and differ, children before parents, then those of the
target and of the nodes above it up to the root: each of them once, and nobody else. -/

namespace TypedValues

theorem Node.changedWithin_subperm {a : Node Cell}
    (h : ∀ d, (a.content.changedBelow d).Subperm (a.content.labels.map Cell.signal)) (b : Node Cell) :
    (a.changedWithin b).Subperm (a.labels.map Cell.signal) := by
  rw [changedWithin_eq, labels_eq, List.map_cons]
  split
  · rw [List.append_nil]
    exact (h b.content).cons_right _
  · exact (List.perm_append_singleton ..).subperm_right.2 ((List.subperm_cons _).2 (h b.content))

theorem Node.changedAll_subperm {as : List (Node Cell)}
    (h : ∀ a ∈ as, ∀ d, (a.content.changedBelow d).Subperm (a.content.labels.map Cell.signal))
    (bs : List (Node Cell)) : (changedAll as bs).Subperm ((labelsAll as).map Cell.signal) := by
  induction as generalizing bs with
  | nil =>
    rw [changedAll]
    · exact List.nil_subperm
    · simp
  | cons a as ih =>
    rw [List.forall_mem_cons] at h
    cases bs with
    | nil => exact List.nil_subperm
    | cons b bs =>
      rw [changedAll, labelsAll, List.map_append]
      exact (changedWithin_subperm h.1 b).append (ih h.2 bs)

theorem Content.changedBelow_subperm (c d : Content Cell) :
    (c.changedBelow d).Subperm (c.labels.map Cell.signal) := by
  induction c using Content.inductOn generalizing d with
  | step c ih =>
    have all (as bs : List (Node Cell)) (has : as = c.children) :
        (Node.changedAll as bs).Subperm (c.labels.map Cell.signal) := by
      rw [labels_eq, ← Node.labelsAll_eq, ← has]
      exact Node.changedAll_subperm (fun a ha d => ih a (has ▸ ha) d) bs
    have one (a b : Node Cell) (ha : [a] = c.children) :
        (a.changedWithin b).Subperm (c.labels.map Cell.signal) := by
      simpa [Node.changedAll] using all [a] [b] ha
    unfold changedBelow
    split
    · exact one _ _ rfl
    · split
      · exact one _ _ rfl
      · exact List.nil_subperm
    · exact all _ _ rfl
    · exact all _ _ rfl
    · exact List.nil_subperm

theorem Edit.below_subperm (e : Edit) (before after : Content Cell) :
    (e.below before after).Subperm (before.labels.map Cell.signal) := by
  rw [below]
  split
  · exact List.nil_subperm
  · exact before.changedBelow_subperm after

theorem Node.Linked.lt {s : Signals} {parent : SignalId} {n : Node Cell} (h : n.Linked s parent) :
    ∀ c ∈ n.labels, parent < c.signal := by
  induction h with
  | @intro parent n _ older _ _ ih =>
    rw [Node.labels_eq, Content.labels_eq]
    refine List.forall_mem_cons.2 ⟨older, fun c hc => ?_⟩
    obtain ⟨m, hm, hc⟩ := List.mem_flatMap.1 hc
    exact older.trans (ih m hm c hc)

theorem Content.Linked.lt {s : Signals} {signal : SignalId} {c : Content Cell} (h : c.Linked s signal) :
    ∀ x ∈ c.labels, signal < x.signal := by
  rw [Content.labels_eq]
  intro x hx
  obtain ⟨n, hn, hx⟩ := List.mem_flatMap.1 hx
  exact (h n hn).lt x hx

/-- Nodes below a signal, the signal itself and those above it are all different. -/
theorem Signals.nodup_around {s : Signals} {signal : SignalId} {c : Content Cell}
    {below : List SignalId} (hlinked : c.Linked s signal)
    (hbelow : below.Subperm (c.labels.map Cell.signal)) (hdistinct : (c.labels.map Cell.signal).Nodup) :
    (below ++ signal :: s.ancestors signal).Nodup := by
  have habove := List.nodup_cons.2 ⟨fun h => lt_irrefl _ (s.ancestors_lt signal signal h),
    s.ancestors_nodup signal⟩
  have hmem := hbelow.subset
  obtain ⟨l, hperm, hsub⟩ := hbelow
  have hnodup : below.Nodup := hperm.nodup_iff.1 (hdistinct.sublist hsub)
  refine List.nodup_append.2 ⟨hnodup, habove, fun id hid j hj => ?_⟩
  obtain ⟨x, hx, rfl⟩ := List.mem_map.1 (hmem hid)
  have hlt := hlinked.lt x hx
  rcases List.mem_cons.1 hj with rfl | hj
  · exact hlt.ne'
  · exact ((s.ancestors_lt signal j hj).trans hlt).ne'

theorem Signals.Apart.nodup_flatMap {s : Signals} (h : s.Apart) {ids : List SignalId}
    (hids : ids.Nodup) : (ids.flatMap s.observers).Nodup := by
  refine List.nodup_flatMap.2 ⟨fun i _ => (h.once i).of_map _, hids.imp fun {i j} hij => ?_⟩
  exact List.disjoint_left.2 fun o hi hj => hij (h.apart i j o hi o hj rfl)

/-- The signals above the part at a location, the nearest first and the value's own last. -/
def Holder.above (v : Value) (location : Location) : List SignalId :=
  match v.content with
  | some c => (Node.mk v.label c).above location
  | none => []

theorem Node.above_mem {n : Node Cell} {location : Location} :
    ∀ id ∈ n.above location, ∃ c ∈ n.labels, c.signal = id := by
  induction location generalizing n with
  | nil => intro id hid; cases hid
  | cons i rest ih =>
    intro id hid
    rw [above] at hid
    split at hid
    next child hchild =>
      rcases List.mem_append.1 hid with hid | hid
      · obtain ⟨c, hc, rfl⟩ := ih id hid
        refine ⟨c, ?_, rfl⟩
        rw [labels_eq]
        exact List.mem_cons_of_mem _ (Content.mem_labels (List.mem_of_getElem? hchild) hc)
      · exact ⟨n.label, n.label_mem_labels, (List.mem_singleton.1 hid).symm⟩
    next => cases hid

namespace Holder

theorem above_mem {v : Value} {location : Location} :
    ∀ id ∈ v.above location, ∃ c ∈ v.cells, c.signal = id := by
  rcases v with ⟨label, _ | c⟩
  · intro id hid; cases hid
  · rw [show (⟨label, some c⟩ : Value) = (Node.mk label c).holder from rfl, cells_holder]
    exact Node.above_mem

/-- The walk up the parents visits the nodes above and ends at the root. -/
theorem Wired.ancestors {s : Signals} {v a : Value} (hv : v.Wired s) {location : Location}
    (ha : v.part? location = some a) : s.ancestors a.label.signal = v.above location := by
  have hroot : s.ancestors v.label.signal = [] := by rw [Signals.ancestors, hv.root]
  rcases part?_cases ha with ⟨-, rfl, hnone⟩ | ⟨⟨label, c⟩, m, rfl, rfl, hm⟩
  · rw [hroot, above, hnone]
  · have hwalk := Node.ancestors_get? hm (hv.linked c rfl)
    rw [show s.ancestors label.signal = [] from hroot, List.append_nil] at hwalk
    exact hwalk

theorem Wired.below {s : Signals} {v a : Value} (hv : v.Wired s) {location : Location}
    (ha : v.part? location = some a) {c : Content Cell} (hc : a.content = some c) :
    c.Linked s a.label.signal ∧ (c.labels.map Cell.signal).Nodup := by
  have hcells : a.cells = a.label :: c.labels := by rw [cells, hc]
  have hdistinct := (hv.holds.sublist (part?_cells ha)).distinct
  rw [hcells, List.map_cons] at hdistinct
  refine ⟨?_, hdistinct.of_cons⟩
  rcases part?_cases ha with ⟨-, rfl, hnone⟩ | ⟨n, m, rfl, rfl, hm⟩
  · rw [hnone] at hc
    cases hc
  · cases hc
    exact Node.linked_get? hm (hv.linked n.content rfl)

theorem Carried.concerns {K : Set Ty} {e : Edit} {v target : Value} {location : Location}
    {s : Signals} {d : Committed Value} {before after : Content Cell} (h : Carried K e v location target s d)
    (hv : v.Wired s) (ht : v.part? location = some target) (hbefore : target.content = some before)
    (hafter : d.tree.part? location = some ⟨target.label, some after⟩)
    (hedit : e.Carried K target.label before s after d.signals d.events) :
    ∀ id ∈ e.below before after ++ target.label.signal :: v.above location,
      (∃ x ∈ v.cells, x.signal = id) ∧ ∃ x ∈ d.tree.cells, x.signal = id := by
  have hcells := part?_cells ht
  have hcells' := part?_cells hafter
  have hlabels : target.cells = target.label :: before.labels := by rw [cells, hbefore]
  have habove : d.tree.above location = v.above location := by
    have hlt := hv.holds.bound _ (part?_label_mem ht)
    rw [← hv.ancestors ht, ← h.wired.ancestors hafter, h.keeps.grows.ancestors hlt]
  intro id hid
  rcases List.mem_append.1 hid with hid | hid
  · obtain ⟨x, hx, hsignal⟩ := List.mem_map.1 ((e.below_subperm before after).subset hid)
    obtain ⟨y, hy, hsignal'⟩ := List.mem_map.1 (hedit.survive hid)
    refine ⟨⟨x, hcells.subset ?_, hsignal⟩, y, hcells'.subset (List.mem_cons_of_mem _ hy), hsignal'⟩
    rw [hlabels]
    exact List.mem_cons_of_mem _ hx
  · rcases List.mem_cons.1 hid with rfl | hid
    · exact ⟨⟨_, part?_label_mem ht, rfl⟩, _, part?_label_mem hafter, rfl⟩
    · exact ⟨above_mem id hid, above_mem id (by rwa [habove])⟩

end Holder

namespace Session

variable {s : Session}

/-- Who is called, in order, and that nobody is called twice. The observers of nodes that the change
drops or makes, and of nodes in other values, are not called. -/
theorem change_notifies (hs : s.Reachable) {label : String} {walk : List Access} {c : Change}
    (hc : ∀ o ∈ c.operands, s.Offers o) {v target : Value} {location : Location}
    {before : Content Cell} {position : Option Nat} (hv : s.values.get? label = some v)
    (hreach : ((v.reachAll walk).run s.policy).outcome = .ok (location, target))
    (hbefore : target.content = some before)
    (hok : ((change label walk c).run s).2.outcome = .ok position) :
    ∃ w after, ((change label walk c).run s).1.values.get? label = some w ∧
      w.part? location = some ⟨target.label, some after⟩ ∧
      called ((change label walk c).run s).2.trace = (if before.equals after then [] else
        ((if c.movesElements then [] else before.changedBelow after) ++
          target.label.signal :: v.above location).flatMap s.signals.observers) ∧
      (called ((change label walk c).run s).2.trace).Nodup ∧
      ∀ i, (∀ x ∈ v.cells, x.signal ≠ i) ∨ (∀ x ∈ w.cells, x.signal ≠ i) →
        ∀ o ∈ ((change label walk c).run s).1.signals.observers i,
          o ∉ called ((change label walk c).run s).2.trace := by
  obtain ⟨K, hK⟩ := hs.invariant
  rcases change_cases s label walk c with ⟨-, -, hfail, -⟩ | ⟨u, location', target', edit, position', hu,
    hreach', hstage, hafter, hcalled, -⟩
  · exact absurd hok (hfail position)
  obtain rfl : u = v := Option.some.inj (hu.symm.trans hv)
  obtain ⟨rfl, rfl⟩ : location' = location ∧ target' = target := by
    simpa using hreach'.symm.trans hreach
  obtain ⟨hcarried, hpart, hmoves⟩ := change_carried hK hc hv hreach hstage
  obtain ⟨after, hw, hedit⟩ := hcarried.target before hbefore
  have hwired := hK.wired.tree label u hv
  have hconcerns := hcarried.concerns hwired hpart hbefore hw hedit
  have hcalls := hcalled.trans hedit.called
  have hnodup : (edit.below before after ++
      target'.label.signal :: s.signals.ancestors target'.label.signal).Nodup := by
    obtain ⟨hlinked, hdistinct⟩ := hwired.below hpart hbefore
    exact Signals.nodup_around hlinked (edit.below_subperm before after) hdistinct
  rw [hwired.ancestors hpart] at hcalls hnodup
  refine ⟨_, after, by rw [hafter, Table.get?_put, if_pos rfl], hw, ?_, ?_, fun i hi o ho => ?_⟩
  · rw [hcalls, Edit.below, hmoves]
  · rw [hcalls]
    split
    · exact List.nodup_nil
    · exact hK.wired.observers.nodup_flatMap hnodup
  · rw [hafter, hcarried.keeps.grows.observers] at ho
    rw [hcalls]
    split
    · exact List.not_mem_nil
    · intro hmem
      obtain ⟨j, hj, hoj⟩ := List.mem_flatMap.1 hmem
      obtain rfl := hK.wired.observers.apart i j o ho o hoj rfl
      obtain ⟨⟨x, hx, hxi⟩, y, hy, hyi⟩ := hconcerns i hj
      rcases hi with hi | hi
      · exact hi x hx hxi
      · exact hi y hy hyi

/-- Switching the lamp on as a whole calls the observer of its flag first and then its own. -/
theorem change_notifies_lit :
    lit.Reachable ∧ called ((change "desk" [] (.set (.list [.bool true]))).run lit).2.trace =
      [⟨2, "bulb"⟩, ⟨1, "room"⟩] := by
  have hoffers : ∀ o ∈ (Change.set (.list [.bool true])).operands, lit.Offers o := by
    intro o ho
    obtain rfl := List.mem_singleton.1 ho
    exact trivial
  have hdesk : lit.values.get? "desk" = some deskLamp.holder := by rfl
  have hreach : ((deskLamp.holder.reachAll []).run lit.policy).outcome = .ok ([], deskLamp.holder) := by
    rfl
  have hok : ((change "desk" [] (.set (.list [.bool true]))).run lit).2.outcome = .ok none := by rfl
  obtain ⟨w, after, hw, hpart, hcalled, -⟩ :=
    change_notifies lit_reachable hoffers hdesk hreach rfl hok
  have hw' : ((change "desk" [] (.set (.list [.bool true]))).run lit).1.values.get? "desk" =
      some ⟨⟨lampType, 0⟩, some (.struct [⟨⟨boolType, 1⟩, .bool true⟩])⟩ := by rfl
  refine ⟨lit_reachable, ?_⟩
  obtain rfl := Option.some.inj (hw.symm.trans hw')
  cases hpart
  rw [hcalled]
  rfl

end Session

end TypedValues
