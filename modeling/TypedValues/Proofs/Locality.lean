import TypedValues.Proofs.Naming
import TypedValues.Proofs.Selection

/-! Changes are local. A change of a part of a value puts a node in the place of another, so all places apart
from it hold what they held, and the nodes above it have another child on the way and nothing else. Changes in
places apart from each other find what they would have found without the other, and may be made in either
order. -/

namespace TypedValues

/-- Neither place is inside the other. -/
def Location.Apart (l m : Location) : Prop := ¬ l <+: m ∧ ¬ m <+: l

namespace Location.Apart

theorem symm {l m : Location} (h : l.Apart m) : m.Apart l := ⟨h.2, h.1⟩

theorem parts {l m : Location} (h : l.Apart m) : ∃ i j rest below, l = i :: rest ∧ m = j :: below ∧
    (i ≠ j ∨ i = j ∧ Location.Apart rest below) := by
  rcases l with _ | ⟨i, rest⟩
  · exact absurd List.nil_prefix h.1
  · rcases m with _ | ⟨j, below⟩
    · exact absurd List.nil_prefix h.2
    · refine ⟨i, j, rest, below, rfl, rfl, ?_⟩
      by_cases hij : i = j
      · subst hij
        exact .inr ⟨rfl, fun hp => h.1 (List.cons_prefix_cons.2 ⟨rfl, hp⟩),
          fun hp => h.2 (List.cons_prefix_cons.2 ⟨rfl, hp⟩)⟩
      · exact .inl hij

end Location.Apart

section

variable {α β : Type}

namespace Content

theorem setChild_comm (c : Content α) {i j : Nat} (h : i ≠ j) (a b : Node α) :
    (c.setChild i a).setChild j b = (c.setChild j b).setChild i a := by
  rcases c with _ | _ | _ | _ | _ | (_ | inner) | ⟨k, inner⟩ | ns | ns <;> try rfl
  · rcases i with _ | i <;> rcases j with _ | j <;> first | rfl | exact absurd rfl h
  · rcases i with _ | i <;> rcases j with _ | j <;> first | rfl | exact absurd rfl h
  · exact congrArg struct (List.set_comm a b h)
  · exact congrArg array (List.set_comm a b h)

theorem setChild_setChild (c : Content α) (i : Nat) (a b : Node α) :
    (c.setChild i a).setChild i b = c.setChild i b := by
  rcases c with _ | _ | _ | _ | _ | (_ | inner) | ⟨k, inner⟩ | ns | ns <;> try rfl
  · cases i <;> rfl
  · cases i <;> rfl
  · exact congrArg struct (List.set_set a)
  · exact congrArg array (List.set_set a)

theorem normal_setChild (c : Content α) (i : Nat) (n : Node α) :
    (c.setChild i n).normal = c.normal.setChild i n.normal := by
  rcases c with _ | _ | _ | _ | _ | (_ | inner) | ⟨k, inner⟩ | ns | ns <;> try rfl
  · cases i <;> rfl
  · cases i <;> rfl
  · simp only [setChild, normal, Node.normalAll_eq, List.map_set]
  · simp only [setChild, normal, Node.normalAll_eq, List.map_set]

end Content

namespace Node

variable {n old x y : Node α} {location other : Location}

theorem get?_set_apart (h : location.Apart other) (n new : Node α) :
    (n.set location new).get? other = n.get? other := by
  induction location generalizing n other with
  | nil => exact absurd List.nil_prefix h.1
  | cons i rest ih =>
    obtain ⟨_, j, _, below, heq, rfl, hparts⟩ := h.parts
    cases heq
    cases hchild : n.content.children[i]? with
    | none => rw [set, hchild]
    | some child =>
      rw [set_cons hchild, get?_cons, get?_cons, Content.children_setChild]
      rcases hparts with hij | ⟨rfl, hrest⟩
      · rw [List.getElem?_set_ne hij]
      · obtain ⟨hi, -⟩ := List.getElem?_eq_some_iff.1 hchild
        rw [List.getElem?_set_self hi, hchild]
        exact ih hrest child

theorem along_self (h : n.get? location = some old) : n.Along location n := by
  have halong : n.Along location (n.set location old) := along_set h rfl
  rwa [set_get? h] at halong

theorem along_set_apart (h : location.Apart other) (hx : n.get? other = some x) (new : Node α) :
    n.Along other (n.set location new) := by
  induction location generalizing n other with
  | nil => exact absurd List.nil_prefix h.1
  | cons i rest ih =>
    obtain ⟨_, j, _, below, heq, rfl, hparts⟩ := h.parts
    cases heq
    cases hchild : n.content.children[i]? with
    | none => rw [set, hchild]; exact along_self hx
    | some child =>
      obtain ⟨next, hnext, hx⟩ := get?_cons_eq_some.1 hx
      rw [set_cons hchild]
      rcases hparts with hij | ⟨rfl, hrest⟩
      · refine .cons rfl (Content.kind_setChild _ _ _) hnext ?_ (along_self hx)
        rw [Content.children_setChild, List.getElem?_set_ne hij, hnext]
      · obtain rfl : child = next := Option.some.inj (hchild.symm.trans hnext)
        obtain ⟨hi, -⟩ := List.getElem?_eq_some_iff.1 hchild
        refine .cons rfl (Content.kind_setChild _ _ _) hchild ?_ (ih hrest hx)
        rw [Content.children_setChild, List.getElem?_set_self hi]

theorem get?_set_above {above below : Location} {i : Nat} (h : n.get? (above ++ i :: below) = some old)
    (hx : n.get? above = some x) (new : Node α) : ∃ child,
      (n.set (above ++ i :: below) new).get? above = some ⟨x.label, x.content.setChild i child⟩ := by
  rw [get?_append, hx] at h
  have hbelow : x.get? (i :: below) = some old := h
  obtain ⟨child, hchild, -⟩ := get?_cons_eq_some.1 hbelow
  refine ⟨child.set below new, ?_⟩
  rw [set_append hx, get?_set hx, set_cons hchild]

theorem set_setChild_ne {i j : Nat} (hij : i ≠ j) {next : Node α} (hj : n.content.children[j]? = some next)
    (c : Node α) (rest : Location) (new : Node α) :
    (⟨n.label, n.content.setChild i c⟩ : Node α).set (j :: rest) new =
      ⟨n.label, (n.content.setChild i c).setChild j (next.set rest new)⟩ := by
  apply set_cons
  rw [Content.children_setChild, List.getElem?_set_ne hij, hj]

theorem set_setChild_self {i : Nat} (hi : i < n.content.children.length) (c : Node α) (rest : Location)
    (new : Node α) : (⟨n.label, n.content.setChild i c⟩ : Node α).set (i :: rest) new =
      ⟨n.label, n.content.setChild i (c.set rest new)⟩ := by
  rw [← Content.setChild_setChild n.content i c (c.set rest new)]
  apply set_cons
  rw [Content.children_setChild, List.getElem?_set_self hi]

theorem set_comm (h : location.Apart other) (hx : n.get? location = some x) (hy : n.get? other = some y)
    (a b : Node α) : (n.set location a).set other b = (n.set other b).set location a := by
  induction location generalizing n other with
  | nil => exact absurd List.nil_prefix h.1
  | cons i rest ih =>
    obtain ⟨_, j, _, below, heq, rfl, hparts⟩ := h.parts
    cases heq
    obtain ⟨child, hchild, hx⟩ := get?_cons_eq_some.1 hx
    obtain ⟨next, hnext, hy⟩ := get?_cons_eq_some.1 hy
    obtain ⟨hi, -⟩ := List.getElem?_eq_some_iff.1 hchild
    obtain ⟨hj, -⟩ := List.getElem?_eq_some_iff.1 hnext
    rw [set_cons hchild, set_cons hnext]
    rcases hparts with hij | ⟨rfl, hrest⟩
    · rw [set_setChild_ne hij hnext, set_setChild_ne hij.symm hchild, Content.setChild_comm _ hij]
    · obtain rfl : child = next := Option.some.inj (hchild.symm.trans hnext)
      rw [set_setChild_self hi, set_setChild_self hi, ih hrest hx hy]

theorem normal_set (n new : Node α) (location : Location) :
    (n.set location new).normal = n.normal.set location new.normal := by
  induction location generalizing n with
  | nil => rfl
  | cons i rest ih =>
    have hchildren : n.normal.content.children[i]? = n.content.children[i]?.map normal := by
      rw [normal_eq, Content.children_normal, List.getElem?_map]
    cases hchild : n.content.children[i]? with
    | none => rw [set, hchild, set, hchildren, hchild]; rfl
    | some child =>
      rw [hchild] at hchildren
      rw [set_cons hchild, set_cons hchildren, normal_eq, Content.normal_setChild, ih, normal_eq n]

end Node

end

variable {K : Set Ty} {next : Nat}

/-- The edit that a change is staged to; where it is refused, nothing is done. -/
def Holder.staged {α : Type} [HasType α] (h : Holder α) (c : Change) (p : Policy) : Edit :=
  match ((h.stageChange c).run p).outcome with
  | .ok (edit, _) => edit
  | _ => .keep

namespace Session

/-- The change of the node `m` inside the value `n` under the label, refused or not, puts `m'` in its place. -/
structure Rewrites (K : Set Ty) (s t : Session) (label : String) (n : Node Cell) (location : Location)
    (m : Node Cell) (c : Change) (m' : Node Cell) : Prop where
  root : t.values.get? label = some (n.set location m').holder
  others : ∀ other, other ≠ label → t.values.get? other = s.values.get? other
  policy : t.policy = s.policy
  grows : s.signals.Grows t.signals
  kept : m'.label = m.label
  typed : m'.Typed K
  result : some m'.content.normal = (m.holder.staged c s.policy).result (some m.content.normal)
  commit : ∀ edit position, ((m.holder.stageChange c).run s.policy).outcome = .ok (edit, position) →
    (edit.commit m.label (some m.content) s.signals).tree = some m'.content

variable {s t : Session} {label : String} {walk walk' : List Access} {location location' : Location}
  {n m m' : Node Cell} {c c' : Change}

theorem Sound.typed_root (h : s.Sound K) (hroot : s.values.get? label = some n.holder) : n.Typed K :=
  Node.typed_mk (h.values label _ hroot).type ((h.values label _ hroot).content n.content rfl)

theorem Wired.bound {root a : Value} (h : s.Wired) (hroot : s.values.get? label = some root)
    (hpart : root.part? location = some a) : a.label.signal < s.signals.all.size :=
  (h.tree label root hroot).holds.bound _ (Holder.part?_label_mem hpart)

theorem change_rewrites (hK : Catalog K next) (hroot : s.values.get? label = some n.holder)
    (hreach : ((n.holder.reachAll walk).run s.policy).outcome = .ok (location, m.holder)) (hn : n.Typed K)
    (hbound : m.label.signal < s.signals.all.size) (ho : ∀ o ∈ c.operands, o.Typed K) :
    ∃ m', Rewrites K s ((change label walk c).run s).1 label n location m c m' := by
  have hget := Node.get?_of_part? (Holder.reachAll_ensures _ _ _ _ hreach)
  have hm := hn.get? hget
  rcases change_cases s label walk c with ⟨hs, -, -, hrefused⟩ |
    ⟨root, location', target, edit, position, hroot', hreach', hstage, hs, -⟩
  · refine ⟨m, ?_⟩
    have hstaged : m.holder.staged c s.policy = .keep := by
      unfold Holder.staged
      split
      next edit position hstage => exact absurd hstage (hrefused _ _ _ hroot hreach _)
      next => rfl
    rw [hs]
    refine ⟨by rw [Node.set_get? hget]; exact hroot, fun _ _ => rfl, rfl, .refl _, rfl, hm, ?_, ?_⟩
    · rw [hstaged]
      rfl
    · exact fun edit position hstage => absurd hstage (hrefused _ _ _ hroot hreach _)
  · cases hroot.symm.trans hroot'
    cases hreach.symm.trans hreach'
    obtain ⟨happlies, -⟩ := m.holder.stageChange_applies c _ _ hstage
    have hedit := Holder.stageChange_typed hK hm.holder ho _ _ hstage
    obtain ⟨after, htree, hcarried⟩ := Edit.commit_carried hK happlies hm.content hedit hbound
    obtain ⟨after', htree', hresult⟩ := Edit.commit_result hK happlies hm.content hedit hbound
    obtain rfl : after = after' := Option.some.inj (htree.symm.trans htree')
    have hstaged : m.holder.staged c s.policy = edit := by rw [Holder.staged, hstage]
    refine ⟨⟨m.label, after⟩, ?_⟩
    rw [hs, Holder.commit_node hget htree]
    refine ⟨?_, ?_, rfl, hcarried.keeps.grows, rfl, Node.typed_mk hm.type_mem hcarried.typed, ?_, ?_⟩
    · rw [Table.get?_put, if_pos rfl]
    · intro other hother
      rw [Table.get?_put, if_neg hother.symm]
    · rw [hstaged]
      exact hresult
    · intro edit' position' hstage'
      cases hstage.symm.trans hstage'
      exact htree

/-- Another walk finds what it found before, in a place apart. -/
theorem Rewrites.reach {y : Node Cell} (h : Rewrites K s t label n location m c m')
    (hapart : location.Apart location')
    (hreach : ((n.holder.reachAll walk').run s.policy).outcome = .ok (location', y.holder)) :
    (((n.set location m').holder.reachAll walk').run t.policy).outcome = .ok (location', y.holder) := by
  have hget := Node.get?_of_part? (Holder.reachAll_ensures _ _ _ _ hreach)
  rw [h.policy]
  exact Holder.reachAll_along hreach (Node.along_set_apart hapart hget m')
    ((Node.get?_set_apart hapart n m').trans hget)

/-- Another change in a place apart ends as it would have before. -/
theorem Rewrites.outcome {y : Node Cell} (h : Rewrites K s t label n location m c m')
    (hapart : location.Apart location') (hroot : s.values.get? label = some n.holder)
    (hreach : ((n.holder.reachAll walk').run s.policy).outcome = .ok (location', y.holder)) :
    ((change label walk' c').run t).2.outcome = ((change label walk' c').run s).2.outcome := by
  rw [outcome_change h.root (h.reach hapart hreach), outcome_change hroot hreach, h.policy]

/-- The change of a part of the value under the label has come through, and nothing but that part has other
content of its own. -/
structure Confined (s t : Session) (label : String) (walk : List Access) (location : Location) (v : Value)
    (c : Change) : Prop where
  /-- The walk leads to the same node, to read as well as to write. The edit makes its content, which `Edit.result`
  tells up to labels and signs of zero. -/
  target : ∃ edit position after root, ((v.stageChange c).run s.policy).outcome = .ok (edit, position) ∧
    (edit.commit v.label v.content s.signals).tree = some after ∧
    some after.normal = edit.result (v.content.map Content.normal) ∧ t.values.get? label = some root ∧
    ((root.reachAll walk).run t.policy).outcome = .ok (location, ⟨v.label, some after⟩) ∧
    ((root.followAll walk).run t.policy).outcome = .ok ⟨v.label, some after⟩
  /-- A node on the way has another child there, and nothing else is another. -/
  above : ∀ above i below, location = above ++ i :: below → ∀ x, s.At label above x → ∃ content child,
    x.content = some content ∧ t.At label above ⟨x.label, some (content.setChild i child)⟩
  apart : ∀ other, location.Apart other → ∀ x, t.At label other x ↔ s.At label other x
  others : ∀ other, other ≠ label → t.values.get? other = s.values.get? other
  observers : ∀ id, t.signals.observers id = s.signals.observers id

/-- In either order the two changes end as they do alone, and the values they leave are equal. -/
structure Commute (s : Session) (label : String) (walk : List Access) (c : Change) (walk' : List Access)
    (c' : Change) : Prop where
  outcome : ((change label walk c).run ((change label walk' c').run s).1).2.outcome =
    ((change label walk c).run s).2.outcome
  outcome' : ((change label walk' c').run ((change label walk c).run s).1).2.outcome =
    ((change label walk' c').run s).2.outcome
  equal : ∃ v w,
    ((change label walk' c').run ((change label walk c).run s).1).1.values.get? label = some v ∧
    ((change label walk c).run ((change label walk' c').run s).1).1.values.get? label = some w ∧
    v.label = w.label ∧ (v.isEqual w).Gives true

theorem at_holder {x : Value} (hroot : s.values.get? label = some n.holder) :
    s.At label location x ↔ ∃ y, n.get? location = some y ∧ y.holder = x := by
  constructor
  · rintro ⟨root, hroot', hpart⟩
    cases hroot.symm.trans hroot'
    rw [Node.part?_holder] at hpart
    exact Option.map_eq_some_iff.1 hpart
  · rintro ⟨y, hy, rfl⟩
    exact ⟨n.holder, hroot, by rw [Node.part?_holder, hy]; rfl⟩

theorem Rewrites.confined (h : Rewrites K s t label n location m c m')
    (hroot : s.values.get? label = some n.holder)
    (hreach : ((n.holder.reachAll walk).run s.policy).outcome = .ok (location, m.holder))
    {edit : Edit} {position : Option Nat}
    (hstage : ((m.holder.stageChange c).run s.policy).outcome = .ok (edit, position)) :
    Confined s t label walk location m.holder c := by
  have hget := Node.get?_of_part? (Holder.reachAll_ensures _ _ _ _ hreach)
  have hreach' : (((n.set location m').holder.reachAll walk).run t.policy).outcome =
      .ok (location, ⟨m.label, some m'.content⟩) := by
    rw [h.policy, ← h.kept]
    exact Holder.reachAll_set hreach h.kept
  have hresult : some m'.content.normal = edit.result (some m.content.normal) := by
    have hstaged : m.holder.staged c s.policy = edit := by rw [Holder.staged, hstage]
    rw [← hstaged, h.result]
  refine ⟨⟨edit, position, m'.content, _, hstage, h.commit _ _ hstage, hresult, h.root, hreach', ?_⟩, ?_, ?_,
    h.others, h.grows.observers⟩
  · rw [Holder.followAll_eq_reachAll, map_eq_pure_bind, Attempt.bind_pure_eq_ok]
    exact ⟨_, hreach', rfl⟩
  · rintro above i below rfl x hx
    obtain ⟨y, hy, rfl⟩ := (at_holder hroot).1 hx
    obtain ⟨child, hchild⟩ := Node.get?_set_above hget hy m'
    exact ⟨y.content, child, rfl, (at_holder h.root).2 ⟨_, hchild, rfl⟩⟩
  · intro other hapart x
    rw [at_holder h.root, at_holder hroot, Node.get?_set_apart hapart]

/-- What two changes in places apart leave does not depend on which of them was made first. -/
theorem Rewrites.equal {t' u u' : Session} {y m₁ m₂ y₁ y₂ : Node Cell} (hapart : location.Apart location')
    (hn : n.Typed K) (hm : n.get? location = some m) (hy : n.get? location' = some y)
    (hfirst : Rewrites K s t label n location m c m₁)
    (hlast : Rewrites K t u label (n.set location m₁) location' y c' y₂)
    (hfirst' : Rewrites K s t' label n location' y c' y₁)
    (hlast' : Rewrites K t' u' label (n.set location' y₁) location m c m₂) :
    ∃ v w, u.values.get? label = some v ∧ u'.values.get? label = some w ∧ v.label = w.label ∧
      (v.isEqual w).Gives true := by
  have hy₁ : (n.set location m₁).get? location' = some y := (Node.get?_set_apart hapart n m₁).trans hy
  have hm₂ : (n.set location' y₁).get? location = some m := (Node.get?_set_apart hapart.symm n y₁).trans hm
  -- each node comes out alike, before and after the other change
  have hsame : m₁.normal = m₂.normal := by
    have hresult := hlast'.result
    rw [hfirst'.policy, ← hfirst.result] at hresult
    exact (Node.normal_inj.2 (Option.some.inj hresult)).symm
  have hsame' : y₂.normal = y₁.normal := by
    have hresult := hlast.result
    rw [hfirst.policy, ← hfirst'.result] at hresult
    exact Node.normal_inj.2 (Option.some.inj hresult)
  obtain ⟨-, hn₁⟩ := hn.set hm m₁ (congrArg Cell.type hfirst.kept) hfirst.typed
  obtain ⟨-, hend⟩ := hn₁.set hy₁ y₂ (congrArg Cell.type hlast.kept) hlast.typed
  have hlabel : ((n.set location m₁).set location' y₂).label = ((n.set location' y₁).set location m₂).label := by
    rw [Node.label_set hy₁ hlast.kept, Node.label_set hm hfirst.kept, Node.label_set hm₂ hlast'.kept,
      Node.label_set hy hfirst'.kept]
  have htype : ((n.set location m₁).set location' y₂).holder.type =
      ((n.set location' y₁).set location m₂).holder.type := congrArg Cell.type hlabel
  have hnormal : ((n.set location m₁).set location' y₂).normal =
      ((n.set location' y₁).set location m₂).normal := by
    rw [← Node.set_comm hapart hm hy, Node.normal_set, Node.normal_set, Node.normal_set, Node.normal_set,
      hsame, hsame']
  refine ⟨_, _, hlast.root, hlast'.root, hlabel, Holder.isEqual_gives_true.2 ⟨_, _, rfl, rfl, ?_, ?_⟩⟩
  · rw [htype]
    exact Ty.compatible_refl _
  · exact (Content.equals_iff _ _).2 ⟨hend.content.fits.nanFree, Node.normal_inj.1 hnormal⟩

theorem changes_commute (h : s.Invariant K) {y : Node Cell} (hroot : s.values.get? label = some n.holder)
    (hreach : ((n.holder.reachAll walk).run s.policy).outcome = .ok (location, m.holder))
    (hreach' : ((n.holder.reachAll walk').run s.policy).outcome = .ok (location', y.holder))
    (hapart : location.Apart location') (ho : ∀ o ∈ c.operands, s.Offers o)
    (ho' : ∀ o ∈ c'.operands, s.Offers o) : s.Commute label walk c walk' c' := by
  have hn : n.Typed K := h.sound.typed_root hroot
  have hpart := Holder.reachAll_ensures _ _ _ _ hreach
  have hpart' := Holder.reachAll_ensures _ _ _ _ hreach'
  have hbound := h.wired.bound hroot hpart
  have hbound' := h.wired.bound hroot hpart'
  have htyped : ∀ o ∈ c.operands, o.Typed K := fun o hmem => h.sound.offers (ho o hmem)
  have htyped' : ∀ o ∈ c'.operands, o.Typed K := fun o hmem => h.sound.offers (ho' o hmem)
  have hm := Node.get?_of_part? hpart
  have hy := Node.get?_of_part? hpart'
  obtain ⟨m₁, hfirst⟩ := change_rewrites h.sound.catalog hroot hreach hn hbound htyped
  obtain ⟨y₁, hfirst'⟩ := change_rewrites h.sound.catalog hroot hreach' hn hbound' htyped'
  -- each change once more, after the other one
  obtain ⟨-, hn₁⟩ := hn.set hm m₁ (congrArg Cell.type hfirst.kept) hfirst.typed
  obtain ⟨-, hn₂⟩ := hn.set hy y₁ (congrArg Cell.type hfirst'.kept) hfirst'.typed
  obtain ⟨y₂, hlast⟩ := change_rewrites h.sound.catalog hfirst.root (hfirst.reach hapart hreach') hn₁
    (hbound'.trans_le hfirst.grows.size) htyped'
  obtain ⟨m₂, hlast'⟩ := change_rewrites h.sound.catalog hfirst'.root (hfirst'.reach hapart.symm hreach) hn₂
    (hbound.trans_le hfirst'.grows.size) htyped
  exact ⟨hfirst'.outcome hapart.symm hroot hreach, hfirst.outcome hapart hroot hreach',
    Rewrites.equal hapart hn hm hy hfirst hlast hfirst' hlast'⟩

/-- A change of a part of a value changes that part only: it is found again with the content that was made for
it, and everything apart from it stays. Changes of two parts, neither of which is inside the other, succeed or
fail alike in either order and leave equal values. -/
theorem change_local (hs : s.Reachable) {v : Value} (hv : s.Reaches label walk location v)
    (hc : v.isConstructed = true) (ho : ∀ o ∈ c.operands, s.Offers o) :
    (∀ position, ((change label walk c).run s).2.outcome = .ok position →
      Confined s ((change label walk c).run s).1 label walk location v c) ∧
    ∀ walk' location' v' c', s.Reaches label walk' location' v' → location.Apart location' →
      (∀ o ∈ c'.operands, s.Offers o) → s.Commute label walk c walk' c' := by
  obtain ⟨K, hK⟩ := hs.invariant
  obtain ⟨n, m, rfl, hroot, hreach⟩ := hv.node hc
  have hpart := Holder.reachAll_ensures _ _ _ _ hreach
  refine ⟨fun position hok => ?_, fun walk' location' v' c' hv' hapart ho' => ?_⟩
  · obtain ⟨edit, hstage⟩ := staged_of_change hroot hreach hok
    obtain ⟨m₁, hrewrites⟩ := change_rewrites hK.sound.catalog hroot hreach (hK.sound.typed_root hroot)
      (hK.wired.bound hroot hpart) fun o hmem => hK.sound.offers (ho o hmem)
    exact hrewrites.confined hroot hreach hstage
  · obtain ⟨root', hroot', hreach'⟩ := hv'
    cases hroot.symm.trans hroot'
    rcases Holder.part?_cases (Holder.reachAll_ensures _ _ _ _ hreach') with ⟨-, -, hnone⟩ | ⟨_, y, -, rfl, -⟩
    · cases hnone
    · exact changes_commute hK hroot hreach hreach' hapart ho ho'

/-- A sign that is off and says nothing. -/
def exitNode : Node Cell :=
  ⟨⟨signType, 2⟩, .struct
    [⟨⟨boolType, 3⟩, .bool false⟩, ⟨⟨stringType, 4⟩, .text ""⟩, ⟨⟨boolType, 5⟩, .bool false⟩]⟩

def posted : Session := ((change "exit" [] (.construct [])).run (signed.create "exit" signType)).1

theorem posted_reachable : posted.Reachable := by
  have hsign : signed.types.get? "sign" = some signType := by rfl
  exact signed_reachable.make (.kept hsign) "exit" (.construct []) fun o ho => by cases ho

theorem posted_exit : posted.values.get? "exit" = some exitNode.holder := by rfl

/-- The sign is switched on and its text is set, in either order; the same where a flag is offered as its text. The
sign is on afterwards, with the text that it had. -/
theorem change_local_posted : posted.Reachable ∧
    posted.Reaches "exit" [.select [.member "on"]] [0] ⟨⟨boolType, 3⟩, some (.bool false)⟩ ∧
    posted.Reaches "exit" [.name "text"] [1] ⟨⟨stringType, 4⟩, some (.text "")⟩ ∧
    ((change "exit" [.select [.member "on"]] (.set (.bool true))).run posted).2.outcome = .ok none ∧
    ((change "exit" [.select [.member "on"]] (.set (.bool true))).run posted).1.At "exit" [0]
      ⟨⟨boolType, 3⟩, some (.bool true)⟩ ∧
    ((change "exit" [.select [.member "on"]] (.set (.bool true))).run posted).1.At "exit" [1]
      ⟨⟨stringType, 4⟩, some (.text "")⟩ ∧
    Confined posted ((change "exit" [.select [.member "on"]] (.set (.bool true))).run posted).1
      "exit" [.select [.member "on"]] [0] ⟨⟨boolType, 3⟩, some (.bool false)⟩ (.set (.bool true)) ∧
    posted.Commute "exit" [.select [.member "on"]] (.set (.bool true)) [.name "text"] (.set (.text "exit")) ∧
    posted.Commute "exit" [.select [.member "on"]] (.set (.bool true)) [.name "text"] (.set (.bool true)) := by
  have hon : posted.Reaches "exit" [.select [.member "on"]] [0] ⟨⟨boolType, 3⟩, some (.bool false)⟩ :=
    ⟨_, posted_exit, by rfl⟩
  have htext : posted.Reaches "exit" [.name "text"] [1] ⟨⟨stringType, 4⟩, some (.text "")⟩ :=
    ⟨_, posted_exit, by rfl⟩
  have hset (l : Literal) : ∀ o ∈ (Change.set l).operands, posted.Offers o :=
    List.forall_mem_cons.2 ⟨trivial, fun o ho => by cases ho⟩
  have hok : ((change "exit" [.select [.member "on"]] (.set (.bool true))).run posted).2.outcome = .ok none := by
    rfl
  have hapart : Location.Apart [0] [1] := ⟨by decide, by decide⟩
  obtain ⟨hconfined, hcommute⟩ := change_local posted_reachable hon rfl (hset (.bool true))
  have hswitched : ((change "exit" [.select [.member "on"]] (.set (.bool true))).run posted).1.At "exit" [0]
      ⟨⟨boolType, 3⟩, some (.bool true)⟩ := ⟨_, by rfl, by rfl⟩
  have hsilent := ((hconfined none hok).apart [1] hapart ⟨⟨stringType, 4⟩, some (.text "")⟩).2 ⟨_, posted_exit, by rfl⟩
  exact ⟨posted_reachable, hon, htext, hok, hswitched, hsilent, hconfined none hok,
    hcommute _ _ _ _ htext hapart (hset (.text "exit")), hcommute _ _ _ _ htext hapart (hset (.bool true))⟩

end Session

end TypedValues
