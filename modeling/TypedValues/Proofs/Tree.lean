import TypedValues.Schema.Basic
import Mathlib.Data.List.Nodup

/-! Content and types are trees. This file has the induction over the nodes below a node and over the
types a type is made of, the labels of a tree, and structural equality as equality of normal forms:
contents are equal when neither holds a not-a-number and they agree up to labels and the sign of zero. -/

namespace TypedValues

theorem forall₂_exists_left {α β : Type} {R : α → β → Prop} {as : List α} {bs : List β}
    (h : List.Forall₂ R as bs) {b : β} (hb : b ∈ bs) : ∃ a ∈ as, R a b := by
  induction h with
  | nil => cases hb
  | cons hR _ ih =>
    rcases List.mem_cons.1 hb with rfl | hb
    · exact ⟨_, List.mem_cons_self, hR⟩
    · obtain ⟨a, ha, hab⟩ := ih hb
      exact ⟨a, List.mem_cons_of_mem _ ha, hab⟩

theorem exists_forall₂ {α β : Type} {R : α → β → Prop} {as : List α} (h : ∀ a ∈ as, ∃ b, R a b) :
    ∃ bs, List.Forall₂ R as bs := by
  induction as with
  | nil => exact ⟨[], .nil⟩
  | cons a as ih =>
    rw [List.forall_mem_cons] at h
    obtain ⟨b, hb⟩ := h.1
    obtain ⟨bs, hbs⟩ := ih h.2
    exact ⟨b :: bs, .cons hb hbs⟩

theorem forall₂_zip {α β γ : Type} {R : α → γ → Prop} {S : β → γ → Prop} {as : List α} {bs : List β}
    {cs : List γ} (ha : List.Forall₂ R as cs) (hb : List.Forall₂ S bs cs) :
    ∀ p ∈ as.zip bs, ∃ c ∈ cs, R p.1 c ∧ S p.2 c := by
  induction ha generalizing bs with
  | nil => simp
  | @cons a c as cs hac _ ih =>
    cases hb with
    | cons hbc hb =>
      rw [List.zip_cons_cons, List.forall_mem_cons]
      refine ⟨⟨c, List.mem_cons_self, hac, hbc⟩, fun p hp => ?_⟩
      obtain ⟨c', hc', h⟩ := ih hb p hp
      exact ⟨c', List.mem_cons_of_mem _ hc', h⟩

theorem forall₂_set {α β : Type} {R : α → β → Prop} {as : List α} {bs : List β} {i : Nat} {a new : α}
    (h : List.Forall₂ R as bs) (hi : as[i]? = some a) (hnew : ∀ b, R a b → R new b) :
    List.Forall₂ R (as.set i new) bs := by
  induction h generalizing i with
  | nil => exact .nil
  | cons hab hrest ih =>
    cases i with
    | zero => cases hi; exact .cons (hnew _ hab) hrest
    | succ i => exact .cons hab (ih hi)

theorem Content.sizeOf_child {α : Type} {c : Content α} {n : Node α} (h : n ∈ c.children) :
    sizeOf n.content < sizeOf c := by
  rcases n with ⟨l, d⟩
  rcases c with _ | _ | _ | _ | _ | (_ | m) | ⟨i, m⟩ | ns | ns <;>
    simp only [Content.children, List.not_mem_nil, List.mem_singleton] at h
  · subst h; simp; omega
  · subst h; simp; omega
  · have := List.sizeOf_lt_of_mem h; simp at this ⊢; omega
  · have := List.sizeOf_lt_of_mem h; simp at this ⊢; omega

/-- What holds of a content whenever it holds of its children holds of every content. -/
theorem Content.inductOn {α : Type} {P : Content α → Prop} (c : Content α)
    (step : ∀ c : Content α, (∀ n ∈ c.children, P n.content) → P c) : P c :=
  step c fun n _ => Content.inductOn n.content step
termination_by sizeOf c
decreasing_by exact Content.sizeOf_child ‹_›

/-- The types that the parts of a value of this shape are declared with. -/
def Shape.components : Shape → List Ty
  | .struct _ members => members.map (·.type)
  | s => s.arguments

namespace Ty

variable {t u : Ty}

theorem component_optional (hs : t.shape = .optional (some u)) : u ∈ t.shape.components := by
  rw [hs]; exact List.mem_cons_self

theorem component_array (hs : t.shape = .array (some u)) : u ∈ t.shape.components := by
  rw [hs]; exact List.mem_cons_self

theorem component_variant {us : List Ty} (hs : t.shape = .variant us) (hu : u ∈ us) : u ∈ t.shape.components := by
  rw [hs]; exact hu

theorem component_struct {base : Option Ty} {members : List Member} (hs : t.shape = .struct base members)
    {m : Member} (hm : m ∈ members) : m.type ∈ t.shape.components := by
  rw [hs]; exact List.mem_map_of_mem hm

end Ty

theorem Ty.sizeOf_component {t u : Ty} (h : u ∈ t.shape.components) : sizeOf u < sizeOf t := by
  rcases t with ⟨_, _, _, shape, _, _⟩
  cases shape with
  | optional a => rcases a with _ | a <;> simp_all [Shape.components, Shape.arguments]; omega
  | array a => rcases a with _ | a <;> simp_all [Shape.components, Shape.arguments]; omega
  | variant as =>
    have := List.sizeOf_lt_of_mem h
    simp_all [Shape.components, Shape.arguments]; omega
  | struct b ms =>
    simp only [Shape.components, List.mem_map] at h
    obtain ⟨m, hm, rfl⟩ := h
    have := List.sizeOf_lt_of_mem hm
    rcases m with ⟨_, _, _⟩
    simp_all; omega
  | _ => simp [Shape.components, Shape.arguments] at h

/-- What holds of a type whenever it holds of its components holds of every type. -/
theorem Ty.inductOn {P : Ty → Prop} (t : Ty)
    (step : ∀ t : Ty, (∀ u ∈ t.shape.components, P u) → P t) : P t :=
  step t fun u _ => Ty.inductOn u step
termination_by sizeOf t
decreasing_by exact Ty.sizeOf_component ‹_›

mutual

/-- The labels below, each before those of its own children. -/
def Content.labels {α : Type} : Content α → List α
  | .optional (some n) => n.labels
  | .variant _ n => n.labels
  | .struct ns => Node.labelsAll ns
  | .array ns => Node.labelsAll ns
  | _ => []

def Node.labels {α : Type} : Node α → List α
  | ⟨label, content⟩ => label :: content.labels

def Node.labelsAll {α : Type} : List (Node α) → List α
  | [] => []
  | n :: ns => n.labels ++ Node.labelsAll ns

end

section

variable {α β : Type}

theorem Node.labels_eq (n : Node α) : n.labels = n.label :: n.content.labels := by
  rcases n with ⟨l, c⟩; rw [Node.labels]

theorem Node.labelsAll_eq (ns : List (Node α)) : Node.labelsAll ns = ns.flatMap Node.labels := by
  induction ns with
  | nil => rw [Node.labelsAll]; rfl
  | cons n ns ih => rw [Node.labelsAll, ih, List.flatMap_cons]

theorem Content.labels_eq (c : Content α) : c.labels = c.children.flatMap Node.labels := by
  rcases c with _ | _ | _ | _ | _ | (_ | n) | ⟨i, n⟩ | ns | ns <;>
    simp [Content.labels, Content.children, Node.labelsAll_eq]

theorem Node.label_mem_labels (n : Node α) : n.label ∈ n.labels := by
  rw [Node.labels_eq]
  exact List.mem_cons_self

theorem Content.mem_labels {c : Content α} {n : Node α} (hn : n ∈ c.children) {l : α} (hl : l ∈ n.labels) :
    l ∈ c.labels := by
  rw [Content.labels_eq]
  exact List.mem_flatMap.2 ⟨n, hn, hl⟩

@[simp] theorem Node.label_relabel (f : α → β) (n : Node α) : (n.relabel f).label = f n.label := by
  rcases n with ⟨l, c⟩; rw [Node.relabel]

@[simp] theorem Node.content_relabel (f : α → β) (n : Node α) :
    (n.relabel f).content = n.content.relabel f := by
  rcases n with ⟨l, c⟩; rw [Node.relabel]

theorem Node.relabelAll_eq (f : α → β) (ns : List (Node α)) :
    Node.relabelAll f ns = ns.map (Node.relabel f) := by
  induction ns with
  | nil => rw [Node.relabelAll]; rfl
  | cons n ns ih => rw [Node.relabelAll, ih, List.map_cons]

theorem Content.relabel_id (c : Content α) : c.relabel id = c := by
  induction c using Content.inductOn with
  | step c ih =>
    have one {n : Node α} (hn : n ∈ c.children) : n.relabel id = n := by
      rcases n with ⟨l, d⟩
      rw [Node.relabel, ih _ hn]
      rfl
    have all {ns : List (Node α)} (h : ∀ n ∈ ns, n ∈ c.children) : Node.relabelAll id ns = ns := by
      rw [Node.relabelAll_eq]
      exact (List.map_congr_left fun n hn => one (h n hn)).trans (List.map_id ns)
    rcases c with _ | _ | _ | _ | _ | (_ | n) | ⟨i, n⟩ | ns | ns <;> rw [Content.relabel]
    · rw [one List.mem_cons_self]
    · rw [one List.mem_cons_self]
    · exact congrArg Content.struct (all fun n hn => hn)
    · exact congrArg Content.array (all fun n hn => hn)

theorem Content.children_relabel (f : α → β) (c : Content α) :
    (c.relabel f).children = c.children.map (Node.relabel f) := by
  rcases c with _ | _ | _ | _ | _ | (_ | n) | ⟨i, n⟩ | ns | ns <;>
    simp [Content.relabel, Content.children, Node.relabelAll_eq]

theorem Content.labels_relabel (f : α → β) (c : Content α) :
    (c.relabel f).labels = c.labels.map f := by
  induction c using Content.inductOn with
  | step c ih =>
    rw [Content.labels_eq, Content.labels_eq, Content.children_relabel, List.flatMap_map,
      List.map_flatMap]
    apply List.flatMap_congr
    intro n hn
    simp [Node.labels_eq, ih n hn]

end

def Real64.unsigned : Real64 → Real64
  | .finite negative units h => .finite (negative && units != 0) units h
  | v => v

theorem Real64.signed_inj {s t : Bool} {u v : Nat} :
    Real64.signed s u = Real64.signed t v ↔ (s && u != 0) = (t && v != 0) ∧ u = v := by
  rcases u with _ | u <;> rcases v with _ | v <;> cases s <;> cases t <;>
    simp [Real64.signed] <;> omega

theorem Real64.equals_iff (a b : Real64) :
    a.equals b = true ↔ a ≠ .nan ∧ a.unsigned = b.unsigned := by
  rcases a with _ | s | ⟨s, u, hu⟩ <;> rcases b with _ | t | ⟨t, v, hv⟩ <;>
    simp [Real64.equals, Real64.unsigned, Real64.signed_inj]

theorem equalReals_iff_forall₂ {as bs : List Real64} :
    equalReals as bs = true ↔ List.Forall₂ (fun a b => a.equals b = true) as bs := by
  induction as generalizing bs with
  | nil => cases bs <;> simp [equalReals]
  | cons a as ih => cases bs <;> simp [equalReals, ih]

theorem equalReals_iff (as bs : List Real64) :
    equalReals as bs = true ↔ Real64.nan ∉ as ∧ as.map Real64.unsigned = bs.map Real64.unsigned := by
  induction as generalizing bs with
  | nil => cases bs <;> simp [equalReals]
  | cons a as ih =>
    cases bs with
    | nil => simp [equalReals]
    | cons b bs =>
      rw [equalReals, Bool.and_eq_true, ih, Real64.equals_iff]
      simp only [List.mem_cons, not_or, List.map_cons, List.cons.injEq, ne_comm]
      tauto

/-- Nothing in the content is a not-a-number. -/
inductive Content.NanFree {α : Type} : Content α → Prop where
  | intro {c : Content α} (here : ∀ vs, c = .reals vs → Real64.nan ∉ vs)
      (below : ∀ n ∈ c.children, NanFree n.content) : NanFree c

mutual

/-- Without labels, and with one zero. -/
def Content.normal {α : Type} : Content α → Content Unit
  | .bool b => .bool b
  | .ints zs => .ints zs
  | .reals vs => .reals (vs.map Real64.unsigned)
  | .text s => .text s
  | .item i => .item i
  | .optional none => .optional none
  | .optional (some inner) => .optional (some inner.normal)
  | .variant i inner => .variant i inner.normal
  | .struct members => .struct (Node.normalAll members)
  | .array elements => .array (Node.normalAll elements)

def Node.normal {α : Type} : Node α → Node Unit
  | ⟨_, content⟩ => ⟨(), content.normal⟩

def Node.normalAll {α : Type} : List (Node α) → List (Node Unit)
  | [] => []
  | n :: ns => n.normal :: Node.normalAll ns

end

section

variable {α β γ : Type}

theorem Content.nanFree_iff {c : Content α} :
    c.NanFree ↔ (∀ vs, c = .reals vs → Real64.nan ∉ vs) ∧ ∀ n ∈ c.children, n.content.NanFree := by
  constructor
  · rintro ⟨here, below⟩; exact ⟨here, below⟩
  · rintro ⟨here, below⟩; exact ⟨here, below⟩

theorem Node.equals_eq (a : Node α) (b : Node β) : a.equals b = a.content.equals b.content := by
  rcases a with ⟨_, a⟩; rcases b with ⟨_, b⟩; rw [Node.equals]

theorem Node.normal_eq (a : Node α) : a.normal = ⟨(), a.content.normal⟩ := by
  rcases a with ⟨_, a⟩; rw [Node.normal]

theorem Node.normal_inj {a : Node α} {b : Node β} :
    a.normal = b.normal ↔ a.content.normal = b.content.normal := by
  rw [Node.normal_eq, Node.normal_eq, Node.mk.injEq]; simp

theorem Node.equalsAll_iff {as : List (Node α)} {bs : List (Node β)}
    (ih : ∀ a ∈ as, ∀ d : Content β,
      a.content.equals d = true ↔ a.content.NanFree ∧ a.content.normal = d.normal) :
    Node.equalsAll as bs = true ↔
      (∀ a ∈ as, a.content.NanFree) ∧ Node.normalAll as = Node.normalAll bs := by
  induction as generalizing bs with
  | nil => cases bs <;> simp [Node.equalsAll, Node.normalAll]
  | cons a as iha =>
    cases bs with
    | nil => simp [Node.equalsAll, Node.normalAll]
    | cons b bs =>
      rw [Node.equalsAll, Bool.and_eq_true, Node.equals_eq, ih a (by simp),
        iha fun a ha => ih a (by simp [ha])]
      simp only [Node.normalAll, List.cons.injEq, List.forall_mem_cons, Node.normal_inj]
      tauto

/-- Structural equality is equality of normal forms between contents without a not-a-number. -/
theorem Content.equals_iff (c : Content α) (d : Content β) :
    c.equals d = true ↔ c.NanFree ∧ c.normal = d.normal := by
  induction c using Content.inductOn generalizing d with
  | step c ih =>
    rw [Content.nanFree_iff]
    cases c with
    | reals vs =>
      rcases d with _ | _ | _ | _ | _ | (_ | _) | _ | _ | _ <;>
        simp [Content.equals, Content.normal, Content.children, equalReals_iff]
    | optional a =>
      cases a with
      | none =>
        rcases d with _ | _ | _ | _ | _ | (_ | _) | _ | _ | _ <;>
          simp [Content.equals, Content.normal, Content.children]
      | some a =>
        have ha := ih a (by simp [Content.children])
        rcases d with _ | _ | _ | _ | _ | (_ | b) | _ | _ | _ <;>
          simp [Content.equals, Content.normal, Content.children, Node.equals_eq, Node.normal_inj, ha]
    | variant i a =>
      have ha := ih a (by simp [Content.children])
      rcases d with _ | _ | _ | _ | _ | (_ | _) | ⟨j, b⟩ | _ | _ <;>
        simp [Content.equals, Content.normal, Content.children, Node.equals_eq, Node.normal_inj, ha]
      tauto
    | struct as =>
      have has (bs : List (Node β)) : Node.equalsAll as bs = true ↔ _ :=
        Node.equalsAll_iff fun a ha => ih a ha
      rcases d with _ | _ | _ | _ | _ | (_ | _) | _ | bs | _ <;>
        simp [Content.equals, Content.normal, Content.children, has]
    | array as =>
      have has (bs : List (Node β)) : Node.equalsAll as bs = true ↔ _ :=
        Node.equalsAll_iff fun a ha => ih a ha
      rcases d with _ | _ | _ | _ | _ | (_ | _) | _ | _ | bs <;>
        simp [Content.equals, Content.normal, Content.children, has]
    | _ =>
      rcases d with _ | _ | _ | _ | _ | (_ | _) | _ | _ | _ <;>
        simp [Content.equals, Content.normal, Content.children]

theorem Node.normalAll_eq (ns : List (Node α)) : Node.normalAll ns = ns.map Node.normal := by
  induction ns with
  | nil => rw [Node.normalAll]; rfl
  | cons n ns ih => rw [Node.normalAll, ih, List.map_cons]

theorem Content.children_normal (c : Content α) :
    c.normal.children = c.children.map Node.normal := by
  rcases c with _ | _ | _ | _ | _ | (_ | n) | ⟨i, n⟩ | ns | ns <;>
    simp [Content.normal, Content.children, Node.normalAll_eq]

theorem Real64.unsigned_eq_nan {v : Real64} : v.unsigned = .nan ↔ v = .nan := by
  rcases v with _ | s | ⟨s, u, hu⟩ <;> simp [Real64.unsigned]

theorem Content.nanFree_normal {c : Content α} : c.normal.NanFree ↔ c.NanFree := by
  induction c using Content.inductOn with
  | step c ih =>
    have hbelow : (∀ n ∈ c.normal.children, n.content.NanFree) ↔ ∀ n ∈ c.children, n.content.NanFree := by
      rw [Content.children_normal]
      simp only [List.forall_mem_map, Node.normal_eq]
      exact forall₂_congr ih
    rw [Content.nanFree_iff, Content.nanFree_iff, hbelow]
    rcases c with _ | _ | vs | _ | _ | (_ | _) | _ | _ | _ <;>
      simp [Content.normal, Real64.unsigned_eq_nan]

theorem Content.equals_self {c : Content α} : c.equals c = true ↔ c.NanFree := by
  rw [Content.equals_iff]; exact and_iff_left rfl

theorem Content.equals_symm {c : Content α} {d : Content β} (h : c.equals d = true) :
    d.equals c = true := by
  rw [Content.equals_iff] at h ⊢
  exact ⟨by rw [← Content.nanFree_normal, ← h.2, Content.nanFree_normal]; exact h.1, h.2.symm⟩

theorem Content.equals_trans {c : Content α} {d : Content β} {e : Content γ}
    (h : c.equals d = true) (h' : d.equals e = true) : c.equals e = true := by
  rw [Content.equals_iff] at h h' ⊢
  exact ⟨h.1, h.2.trans h'.2⟩

theorem Content.normal_relabel (f : α → β) (c : Content α) : (c.relabel f).normal = c.normal := by
  induction c using Content.inductOn with
  | step c ih =>
    have hall (ns : List (Node α)) (h : ∀ n ∈ ns, (n.content.relabel f).normal = n.content.normal) :
        Node.normalAll (Node.relabelAll f ns) = Node.normalAll ns := by
      rw [Node.relabelAll_eq, Node.normalAll_eq, Node.normalAll_eq, List.map_map]
      apply List.map_congr_left
      intro n hn
      rw [Function.comp_apply, Node.normal_inj, Node.content_relabel, h n hn]
    rcases c with _ | _ | _ | _ | _ | (_ | n) | ⟨i, n⟩ | ns | ns <;>
      simp only [Content.relabel, Content.normal]
    · rw [Node.normal_eq, Node.content_relabel, ih n (by simp [Content.children]), ← Node.normal_eq]
    · rw [Node.normal_eq, Node.content_relabel, ih n (by simp [Content.children]), ← Node.normal_eq]
    · rw [hall ns ih]
    · rw [hall ns ih]

theorem Content.nanFree_relabel {f : α → β} {c : Content α} : (c.relabel f).NanFree ↔ c.NanFree := by
  rw [← Content.nanFree_normal, Content.normal_relabel, Content.nanFree_normal]

theorem Content.equals_relabel_left (f : α → β) (c : Content α) (d : Content γ) :
    (c.relabel f).equals d = c.equals d := by
  rw [Bool.eq_iff_iff, Content.equals_iff, Content.equals_iff, Content.nanFree_relabel,
    Content.normal_relabel]

end

end TypedValues
