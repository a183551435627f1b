import TypedValues.Proofs.Tree
import TypedValues.Value.Merge
import Mathlib.Order.Nat

/-! Signals of live trees. Planting and merging only add signals, so what was linked stays linked and
observers stay where they are. `Keeps` accounts for the cells of a tree before and after: those after
are old ones or new, and each has a signal of its own if the old ones had. -/

namespace TypedValues

namespace Signals

/-- `t` has all signals of `s` under their parents. -/
structure Extends (s t : Signals) : Prop where
  size : s.all.size ≤ t.all.size
  parent : ∀ id < s.all.size, t.parent? id = s.parent? id

/-- `t` may have more signals than `s`, but no observer more or less. -/
structure Grows (s t : Signals) : Prop extends s.Extends t where
  observers : ∀ id, t.observers id = s.observers id
  next : t.nextObserver = s.nextObserver

theorem Extends.trans {s t u : Signals} (h : s.Extends t) (h' : t.Extends u) : s.Extends u :=
  ⟨h.size.trans h'.size, fun id hid => (h'.parent id (hid.trans_le h.size)).trans (h.parent id hid)⟩

theorem Grows.refl (s : Signals) : s.Grows s := ⟨⟨le_rfl, fun _ _ => rfl⟩, fun _ => rfl, rfl⟩

theorem Grows.trans {s t u : Signals} (h : s.Grows t) (h' : t.Grows u) : s.Grows u :=
  ⟨h.toExtends.trans h'.toExtends, fun id => (h'.observers id).trans (h.observers id), h'.next.trans h.next⟩

theorem grows_fresh (s : Signals) (parent : Option SignalId) : s.Grows (s.fresh parent).2 := by
  refine ⟨⟨by simp [fresh], ?_⟩, ?_, rfl⟩
  · intro id hid
    simp [fresh, parent?, Array.getElem?_push, hid.ne]
  · intro id
    simp only [fresh, observers, Array.getElem?_push]
    split
    next heq =>
      split at heq
      next hid =>
        cases heq
        rw [hid, Array.getElem?_eq_none le_rfl]
      next => rw [heq]
    next heq =>
      split at heq
      next => cases heq
      next => rw [heq]

theorem parent?_fresh (s : Signals) (parent : Option SignalId) :
    (s.fresh parent).2.parent? s.all.size = parent := by
  simp [fresh, parent?]

theorem size_fresh (s : Signals) (parent : Option SignalId) :
    (s.fresh parent).2.all.size = s.all.size + 1 := by simp [fresh]

/-- The cells have signals that exist, each one of its own. -/
structure Holds (s : Signals) (cells : List Cell) : Prop where
  bound : ∀ c ∈ cells, c.signal < s.all.size
  distinct : (cells.map Cell.signal).Nodup

/-- From `old` to `new` cells: a cell is kept or has a new signal. -/
structure Keeps (s : Signals) (old new : List Cell) (t : Signals) : Prop where
  grows : s.Grows t
  cells : ∀ c ∈ new, c ∈ old ∨ s.all.size ≤ c.signal
  holds : s.Holds old → t.Holds new

theorem holds_nil (s : Signals) : s.Holds [] := ⟨by simp, by simp⟩

theorem Holds.mono {s t : Signals} {cells : List Cell} (h : s.Holds cells) (hst : s.Extends t) :
    t.Holds cells := ⟨fun c hc => (h.bound c hc).trans_le hst.size, h.distinct⟩

theorem Holds.sublist {s : Signals} {some all : List Cell} (h : s.Holds all)
    (hsub : some.Sublist all) : s.Holds some :=
  ⟨fun c hc => h.bound c (hsub.subset hc), h.distinct.sublist (hsub.map _)⟩

theorem holds_append {s : Signals} {as bs : List Cell} :
    s.Holds (as ++ bs) ↔ s.Holds as ∧ s.Holds bs ∧ ∀ a ∈ as, ∀ b ∈ bs, a.signal ≠ b.signal := by
  constructor
  · intro h
    refine ⟨h.sublist (List.sublist_append_left ..), h.sublist (List.sublist_append_right ..), ?_⟩
    have hd := h.distinct
    rw [List.map_append, List.nodup_append] at hd
    exact fun a ha b hb => hd.2.2 _ (List.mem_map_of_mem ha) _ (List.mem_map_of_mem hb)
  · rintro ⟨ha, hb, hab⟩
    refine ⟨fun c hc => (List.mem_append.1 hc).elim (ha.bound c) (hb.bound c), ?_⟩
    rw [List.map_append, List.nodup_append]
    refine ⟨ha.distinct, hb.distinct, ?_⟩
    rintro _ hx _ hy
    obtain ⟨a, hmem, rfl⟩ := List.mem_map.1 hx
    obtain ⟨b, hmem', rfl⟩ := List.mem_map.1 hy
    exact hab a hmem b hmem'

namespace Keeps

variable {s t u : Signals} {old new : List Cell}

theorem refl (s : Signals) (cells : List Cell) : s.Keeps cells cells s :=
  ⟨.refl s, fun _ hc => .inl hc, id⟩

/-- Side by side: kept cells differ as before, and what is new on one side is newer than all that was
there when the other side was done. -/
theorem append {old' new' : List Cell} (h : s.Keeps old new t) (h' : t.Keeps old' new' u) :
    s.Keeps (old ++ old') (new ++ new') u := by
  refine ⟨h.grows.trans h'.grows, ?_, ?_⟩
  · intro c hc
    rcases List.mem_append.1 hc with hc | hc
    · exact (h.cells c hc).imp_left (List.mem_append_left _)
    · exact (h'.cells c hc).imp (List.mem_append_right _) h.grows.size.trans
  · intro hold
    obtain ⟨hold, hold', hapart⟩ := holds_append.1 hold
    have hnew := h.holds hold
    refine holds_append.2 ⟨hnew.mono h'.grows.toExtends,
      h'.holds (hold'.mono h.grows.toExtends), fun a ha b hb => ?_⟩
    rcases h'.cells b hb with hb | hb
    · rcases h.cells a ha with ha | ha
      · exact hapart a ha b hb
      · exact ((hold'.bound b hb).trans_le ha).ne'
    · exact ((hnew.bound a ha).trans_le hb).ne

theorem frame (h : s.Keeps old new t) (pre post : List Cell) :
    s.Keeps (pre ++ (old ++ post)) (pre ++ (new ++ post)) t :=
  (refl s pre).append (h.append (refl t post))

theorem of_sublist {all : List Cell} (h : s.Keeps old new t) (hsub : old.Sublist all) :
    s.Keeps all new t :=
  ⟨h.grows, fun c hc => (h.cells c hc).imp_left (hsub.subset ·), fun hall => h.holds (hall.sublist hsub)⟩

theorem drop (s : Signals) (cells : List Cell) : s.Keeps cells [] s :=
  (refl s []).of_sublist (List.nil_sublist cells)

theorem fresh (s : Signals) (type : Ty) (parent : Option SignalId) :
    s.Keeps [] [⟨type, s.all.size⟩] (s.fresh parent).2 := by
  refine ⟨s.grows_fresh parent, by simp, fun _ => ⟨?_, by simp⟩⟩
  simp [size_fresh]

end Keeps

end Signals

/-- The node's parent is `parent`, an older signal, and its own signal is the parent of its children. -/
inductive Node.Linked (s : Signals) : SignalId → Node Cell → Prop where
  | intro {parent : SignalId} {n : Node Cell} (link : s.parent? n.label.signal = some parent)
      (older : parent < n.label.signal) (bound : n.label.signal < s.all.size)
      (below : ∀ m ∈ n.content.children, Linked s n.label.signal m) : Linked s parent n

/-- All children of the content are linked to the signal. -/
def Content.Linked (s : Signals) (signal : SignalId) (c : Content Cell) : Prop :=
  ∀ n ∈ c.children, n.Linked s signal

namespace Node.Linked

variable {s t : Signals} {parent : SignalId} {n : Node Cell}

theorem link (h : n.Linked s parent) : s.parent? n.label.signal = some parent := by
  cases h; assumption

theorem older (h : n.Linked s parent) : parent < n.label.signal := by cases h; assumption

theorem bound (h : n.Linked s parent) : n.label.signal < s.all.size := by cases h; assumption

theorem content (h : n.Linked s parent) : n.content.Linked s n.label.signal := by
  cases h; assumption

theorem mono (h : n.Linked s parent) (hst : s.Extends t) : n.Linked t parent := by
  induction h with
  | intro link older bound _ ih =>
    exact .intro ((hst.parent _ bound).trans link) older (bound.trans_le hst.size) ih

end Node.Linked

theorem Content.Linked.mono {s t : Signals} {signal : SignalId} {c : Content Cell}
    (h : c.Linked s signal) (hst : s.Extends t) : c.Linked t signal :=
  fun n hn => (h n hn).mono hst

/-- Staged nodes have become live ones under `signal`. -/
structure Planted (s : Signals) (signal : SignalId) (staged : List (Node Ty))
    (live : List (Node Cell)) (t : Signals) : Prop where
  keeps : s.Keeps [] (Node.labelsAll live) t
  tree : live.map (Node.relabel HasType.type) = staged
  linked : signal < s.all.size → ∀ n ∈ live, n.Linked t signal

namespace Planted

variable {s t u : Signals} {signal : SignalId}

theorem nil (s : Signals) (signal : SignalId) : Planted s signal [] [] s :=
  ⟨.refl s [], rfl, by simp⟩

theorem cons {b : Node Ty} {bs : List (Node Ty)} {a : Node Cell} {as : List (Node Cell)}
    (h : Planted s signal [b] [a] t) (hs : Planted t signal bs as u) :
    Planted s signal (b :: bs) (a :: as) u := by
  refine ⟨?_, ?_, ?_⟩
  · have hkeeps := h.keeps.append hs.keeps
    rw [Node.labelsAll_eq, Node.labelsAll_eq] at hkeeps
    rw [Node.labelsAll_eq]
    simpa using hkeeps
  · have htree := h.tree
    rw [List.map_singleton, List.singleton_inj] at htree
    rw [List.map_cons, htree, hs.tree]
  · intro hlt
    have hgrows := hs.keeps.grows
    exact List.forall_mem_cons.2 ⟨(h.linked hlt a List.mem_cons_self).mono hgrows.toExtends,
      hs.linked (hlt.trans_le h.keeps.grows.size)⟩

end Planted

theorem Node.plantAll_planted {signal : SignalId} {ns : List (Node Ty)}
    (h : ∀ n ∈ ns, ∀ s, Planted s signal [n] [(n.plant signal s).1] (n.plant signal s).2)
    (s : Signals) :
    Planted s signal ns (Node.plantAll signal ns s).1 (Node.plantAll signal ns s).2 := by
  induction ns generalizing s with
  | nil => exact .nil s signal
  | cons n ns ih =>
    rw [List.forall_mem_cons] at h
    rw [plantAll]
    exact (h.1 s).cons (ih h.2 _)

theorem Node.plant_planted {n : Node Ty}
    (h : ∀ signal s, (n.content.plant signal s).1.relabel HasType.type = n.content ∧
      Planted s signal n.content.children (n.content.plant signal s).1.children
        (n.content.plant signal s).2) (parent : SignalId) (s : Signals) :
    Planted s parent [n] [(n.plant parent s).1] (n.plant parent s).2 := by
  rcases n with ⟨type, content⟩
  obtain ⟨htree, hbelow⟩ := h s.all.size (s.fresh (some parent)).2
  have hlt : s.all.size < (s.fresh (some parent)).2.all.size := by rw [s.size_fresh]; omega
  refine ⟨?_, ?_, ?_⟩
  · have hkeeps := (Signals.Keeps.fresh s type (some parent)).append hbelow.keeps
    rw [labelsAll_eq, ← Content.labels_eq] at hkeeps
    rw [labelsAll_eq, List.flatMap_singleton, labels_eq]
    exact hkeeps
  · rw [List.map_singleton, List.singleton_inj, plant, relabel]
    exact congrArg (Node.mk type) htree
  · intro hparent
    refine List.forall_mem_singleton.2 (.intro ?_ hparent ?_ (hbelow.linked hlt))
    · exact (hbelow.keeps.grows.parent _ hlt).trans (s.parent?_fresh _)
    · exact hlt.trans_le hbelow.keeps.grows.size

/-- Planted content is the staged content, under new signals. -/
theorem Content.plant_planted (c : Content Ty) (signal : SignalId) (s : Signals) :
    (c.plant signal s).1.relabel HasType.type = c ∧
      Planted s signal c.children (c.plant signal s).1.children (c.plant signal s).2 := by
  induction c using Content.inductOn generalizing signal s with
  | step c ih =>
    have one {n : Node Ty} (hn : n ∈ c.children) (signal : SignalId) (s : Signals) :
        Planted s signal [n] [(n.plant signal s).1] (n.plant signal s).2 :=
      Node.plant_planted (ih n hn) signal s
    have tree {n : Node Ty} (hn : n ∈ c.children) :
        (n.plant signal s).1.relabel HasType.type = n := by
      simpa using (one hn signal s).tree
    have all (ns : List (Node Ty)) (hns : ns = c.children) :
        Planted s signal ns (Node.plantAll signal ns s).1 (Node.plantAll signal ns s).2 :=
      Node.plantAll_planted (fun n hn => one (hns ▸ hn) signal) s
    rcases c with _ | _ | _ | _ | _ | (_ | n) | ⟨i, n⟩ | ns | ns
    · exact ⟨rfl, .nil s signal⟩
    · exact ⟨rfl, .nil s signal⟩
    · exact ⟨rfl, .nil s signal⟩
    · exact ⟨rfl, .nil s signal⟩
    · exact ⟨rfl, .nil s signal⟩
    · exact ⟨rfl, .nil s signal⟩
    · rw [plant]
      exact ⟨by rw [relabel, tree List.mem_cons_self], one List.mem_cons_self signal s⟩
    · rw [plant]
      exact ⟨by rw [relabel, tree List.mem_cons_self], one List.mem_cons_self signal s⟩
    · rw [plant]
      exact ⟨by rw [relabel, Node.relabelAll_eq, (all ns rfl).tree], all ns rfl⟩
    · rw [plant]
      exact ⟨by rw [relabel, Node.relabelAll_eq, (all ns rfl).tree], all ns rfl⟩

namespace Node

variable (n : Node Ty) (parent : SignalId) (s : Signals)

theorem planted : Planted s parent [n] [(n.plant parent s).1] (n.plant parent s).2 :=
  plant_planted (fun signal s => n.content.plant_planted signal s) parent s

theorem relabel_plant : (n.plant parent s).1.relabel HasType.type = n :=
  List.singleton_inj.1 (n.planted parent s).tree

theorem size_le_of_mem_plant {c : Cell} (hc : c ∈ (n.plant parent s).1.labels) : s.all.size ≤ c.signal := by
  rcases (n.planted parent s).keeps.cells c (by rwa [labelsAll_eq, List.flatMap_singleton]) with hold | hnew
  · cases hold
  · exact hnew

end Node

end TypedValues
