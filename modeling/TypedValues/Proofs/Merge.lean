import TypedValues.Proofs.Signals
import TypedValues.Proofs.Typed

/-! Merging. Content merged into content of a compatible type becomes equal to what was staged, keeps
the nodes that both have, and is typed again. The observers called are those of the nodes below that
were kept and whose content differs from before, children before parents and siblings in order. -/

namespace TypedValues

mutual

/-- The signals of the nodes below that both contents have and that differ in content. -/
def Content.changedBelow : Content Cell → Content Cell → List SignalId
  | .optional (some a), .optional (some b) => a.changedWithin b
  | .variant i a, .variant j b => if i = j then a.changedWithin b else []
  | .struct as, .struct bs => Node.changedAll as bs
  | .array as, .array bs => Node.changedAll as bs
  | _, _ => []

def Node.changedWithin : Node Cell → Node Cell → List SignalId
  | ⟨cell, a⟩, ⟨_, b⟩ => a.changedBelow b ++ if a.equals b then [] else [cell.signal]

def Node.changedAll : List (Node Cell) → List (Node Cell) → List SignalId
  | a :: as, b :: bs => a.changedWithin b ++ Node.changedAll as bs
  | _, _ => []

end

theorem Node.changedWithin_eq (a b : Node Cell) : a.changedWithin b =
    a.content.changedBelow b.content ++
      if a.content.equals b.content then [] else [a.label.signal] := by
  rcases a with ⟨cell, a⟩; rcases b with ⟨_, b⟩; rw [changedWithin]

theorem Content.changedBelow_of_children {c : Content Cell} (h : c.children = []) (d : Content Cell) :
    c.changedBelow d = [] := by
  rcases c with _ | _ | _ | _ | _ | (_ | _) | _ | ns | ns
  · cases d <;> rfl
  · cases d <;> rfl
  · cases d <;> rfl
  · cases d <;> rfl
  · cases d <;> rfl
  · cases d <;> rfl
  · cases h
  · cases h
  · obtain rfl : ns = [] := h
    cases d <;> rfl
  · obtain rfl : ns = [] := h
    cases d <;> rfl

/-- The contents have one kind and, where both have a node, hold alike contents there. -/
inductive Content.Alike : Content Cell → Content Ty → Prop where
  | bool (a b : Bool) : Alike (.bool a) (.bool b)
  | ints (as bs : List Int) : Alike (.ints as) (.ints bs)
  | reals (as : List Real64) {bs : List Real64} (number : Real64.nan ∉ bs) :
      Alike (.reals as) (.reals bs)
  | text (a b : String) : Alike (.text a) (.text b)
  | item (i j : Nat) : Alike (.item i) (.item j)
  | empty : Alike (.optional none) (.optional none)
  | emptied (a : Node Cell) : Alike (.optional (some a)) (.optional none)
  | filled {b : Node Ty} (number : b.content.NanFree) : Alike (.optional none) (.optional (some b))
  | optional {a : Node Cell} {b : Node Ty} (inner : Alike a.content b.content) :
      Alike (.optional (some a)) (.optional (some b))
  | switched {i j : Nat} (a : Node Cell) {b : Node Ty} (index : i ≠ j)
      (number : b.content.NanFree) : Alike (.variant i a) (.variant j b)
  | variant (i : Nat) {a : Node Cell} {b : Node Ty} (inner : Alike a.content b.content) :
      Alike (.variant i a) (.variant i b)
  | struct {as : List (Node Cell)} {bs : List (Node Ty)} (length : as.length = bs.length)
      (inner : ∀ p ∈ as.zip bs, Alike p.1.content p.2.content) : Alike (.struct as) (.struct bs)
  | array {as : List (Node Cell)} {bs : List (Node Ty)} (number : ∀ b ∈ bs, b.content.NanFree)
      (inner : ∀ p ∈ as.zip bs, Alike p.1.content p.2.content) : Alike (.array as) (.array bs)

/-- Merging `staged` into the content of `signal`. -/
structure Merges (s : Signals) (signal : SignalId) (current : Content Cell) (staged : Content Ty)
    (m : Merged (Content Cell)) : Prop where
  keeps : s.Keeps current.labels m.tree.labels m.signals
  linked : signal < s.all.size → current.Linked s signal → m.tree.Linked m.signals signal
  equal : m.tree.equals staged = true
  changed : m.changed = !current.equals staged
  same : m.changed = false → m.tree = current
  called : m.called = (current.changedBelow m.tree).flatMap s.observers
  survive : current.changedBelow m.tree ⊆ m.tree.labels.map Cell.signal

structure MergesAll (s : Signals) (signal : SignalId) (current : List (Node Cell))
    (staged : List (Node Ty)) (m : Merged (List (Node Cell))) : Prop where
  keeps : s.Keeps (Node.labelsAll current) (Node.labelsAll m.tree) m.signals
  linked : signal < s.all.size → (∀ n ∈ current, n.Linked s signal) →
    ∀ n ∈ m.tree, n.Linked m.signals signal
  equal : Node.equalsAll m.tree staged = true
  changed : m.changed = !Node.equalsAll current staged
  same : m.changed = false → m.tree = current
  called : m.called = (Node.changedAll current m.tree).flatMap s.observers
  survive : Node.changedAll current m.tree ⊆ (Node.labelsAll m.tree).map Cell.signal

theorem Node.mergeInto_eq (b : Node Ty) (a : Node Cell) (s : Signals) : b.mergeInto a s =
    ⟨⟨a.label, (a.content.merge a.label.signal b.content s).tree⟩,
      (a.content.merge a.label.signal b.content s).changed,
      (a.content.merge a.label.signal b.content s).signals,
      (a.content.merge a.label.signal b.content s).called ++
        if (a.content.merge a.label.signal b.content s).changed then
          (a.content.merge a.label.signal b.content s).signals.observers a.label.signal
        else []⟩ := by
  rcases a with ⟨cell, a⟩; rcases b with ⟨type, b⟩; rw [mergeInto]

namespace Merges

variable {s : Signals} {signal : SignalId} {current : Content Cell} {staged : Content Ty}

/-- Where nothing lies below any more. -/
theorem leaf {tree : Content Cell} {changed : Bool} (htree : tree.children = [])
    (hbelow : current.changedBelow tree = []) (hequal : tree.equals staged = true)
    (hchanged : changed = !current.equals staged) (hsame : changed = false → tree = current) :
    Merges s signal current staged ⟨tree, changed, s, []⟩ := by
  refine ⟨?_, ?_, hequal, hchanged, hsame, by rw [hbelow]; rfl, by simp [hbelow]⟩
  · rw [Content.labels_eq tree, htree]; exact .drop s _
  · intro _ _
    rw [Content.Linked, htree]; simp

/-- Where the staged content takes the place of the current one. -/
theorem planted (hnumber : staged.NanFree) (hequal : current.equals staged = false)
    (hbelow : ∀ tree : Content Cell, tree.relabel HasType.type = staged →
      current.changedBelow tree = []) :
    Merges s signal current staged (.planted (staged.plant signal s)) := by
  obtain ⟨htree, hplanted⟩ := staged.plant_planted signal s
  refine ⟨?_, fun hlt _ => hplanted.linked hlt, ?_, by simp [Merged.planted, hequal],
    by simp [Merged.planted], ?_, ?_⟩
  · have hkeeps := hplanted.keeps
    rw [Node.labelsAll_eq, ← Content.labels_eq] at hkeeps
    exact hkeeps.of_sublist (List.nil_sublist _)
  · rw [Merged.planted, ← Content.equals_relabel_left HasType.type, htree]
    exact Content.equals_self.2 hnumber
  · rw [Merged.planted, hbelow _ htree]; rfl
  · rw [Merged.planted, hbelow _ htree]; exact List.nil_subset _

/-- Where the children are merged one by one. -/
theorem of_children {as : List (Node Cell)} {bs : List (Node Ty)}
    {m : Merged (List (Node Cell))} {tree : Content Cell} (h : MergesAll s signal as bs m)
    (hcurrent : current.children = as) (htree : tree.children = m.tree)
    (hequal : tree.equals staged = Node.equalsAll m.tree bs)
    (hchanged : current.equals staged = Node.equalsAll as bs)
    (hsame : m.tree = as → tree = current)
    (hbelow : current.changedBelow tree = Node.changedAll as m.tree) :
    Merges s signal current staged ⟨tree, m.changed, m.signals, m.called⟩ := by
  refine ⟨?_, ?_, hequal.trans h.equal, h.changed.trans (by rw [hchanged]),
    fun hc => hsame (h.same hc), h.called.trans (by rw [hbelow]), ?_⟩
  · have hkeeps := h.keeps
    rw [Node.labelsAll_eq, Node.labelsAll_eq] at hkeeps
    rw [Content.labels_eq, Content.labels_eq, hcurrent, htree]
    exact hkeeps
  · intro hlt hlinked
    rw [Content.Linked, hcurrent] at hlinked
    rw [Content.Linked, htree]
    exact h.linked hlt hlinked
  · have hsurvive := h.survive
    rw [Node.labelsAll_eq] at hsurvive
    rw [hbelow, Content.labels_eq, htree]
    exact hsurvive

/-- A merge changes the content exactly when it comes out unequal. -/
theorem changed_iff {m : Merged (Content Cell)} (h : Merges s signal current staged m) :
    m.changed = !current.equals m.tree := by
  rw [h.changed, Bool.not_inj_iff, Bool.eq_iff_iff]
  exact ⟨fun hc => Content.equals_trans hc (Content.equals_symm h.equal),
    fun hc => Content.equals_trans hc h.equal⟩

end Merges

namespace MergesAll

variable {s : Signals} {signal : SignalId}

theorem nil (s : Signals) (signal : SignalId) : MergesAll s signal [] [] (.unchanged [] s) :=
  ⟨.refl s _, by simp [Merged.unchanged], rfl, rfl, fun _ => rfl, rfl, List.nil_subset _⟩

theorem cons {a : Node Cell} {b : Node Ty} {as : List (Node Cell)} {bs : List (Node Ty)}
    {m : Merged (List (Node Cell))}
    (h : Merges s a.label.signal a.content b.content (a.content.merge a.label.signal b.content s))
    (hs : MergesAll (b.mergeInto a s).signals signal as bs m) :
    MergesAll s signal (a :: as) (b :: bs) ⟨(b.mergeInto a s).tree :: m.tree,
      (b.mergeInto a s).changed || m.changed, m.signals, (b.mergeInto a s).called ++ m.called⟩ := by
  rw [Node.mergeInto_eq] at hs ⊢
  generalize a.content.merge a.label.signal b.content s = one at h hs
  simp only at hs ⊢
  have hgrows := h.keeps.grows
  refine ⟨?_, ?_, ?_, ?_, ?_, ?_, ?_⟩
  · have hself := (Signals.Keeps.refl s [a.label]).append h.keeps
    have hkeeps := hself.append hs.keeps
    simpa [Node.labelsAll, Node.labels_eq] using hkeeps
  · intro hlt hlinked
    rw [List.forall_mem_cons] at hlinked
    refine List.forall_mem_cons.2 ⟨?_, hs.linked (hlt.trans_le hgrows.size) fun n hn =>
      (hlinked.2 n hn).mono hgrows.toExtends⟩
    have ha := hlinked.1
    have hbelow : one.tree.Linked one.signals a.label.signal := h.linked ha.bound ha.content
    exact (Node.Linked.intro (n := ⟨a.label, one.tree⟩) ((hgrows.parent _ ha.bound).trans ha.link)
      ha.older (ha.bound.trans_le hgrows.size) hbelow).mono hs.keeps.grows.toExtends
  · rw [Node.equalsAll, Node.equals_eq, h.equal, hs.equal]; rfl
  · rw [Node.equalsAll, Node.equals_eq, h.changed, hs.changed, Bool.not_and]
  · intro hc
    rw [Bool.or_eq_false_iff] at hc
    simp only [h.same hc.1, hs.same hc.2]
    rcases a with ⟨cell, content⟩
    rfl
  · rw [Node.changedAll, Node.changedWithin_eq, List.flatMap_append, List.flatMap_append, ← h.called,
      hs.called, hgrows.observers, h.changed_iff, funext hgrows.observers]
    cases a.content.equals one.tree <;> simp
  · -- the node that was merged into keeps its label
    have hown : a.changedWithin ⟨a.label, one.tree⟩ ⊆
        (Node.mk a.label one.tree).labels.map Cell.signal := by
      rw [Node.changedWithin_eq, Node.labels_eq, List.map_cons]
      refine List.append_subset.2 ⟨List.subset_cons_of_subset _ h.survive, ?_⟩
      split <;> simp
    rw [Node.changedAll, Node.labelsAll, List.map_append]
    exact List.append_subset.2 ⟨List.subset_append_of_subset_left _ hown,
      List.subset_append_of_subset_right _ hs.survive⟩

theorem single {a : Node Cell} {b : Node Ty}
    (h : Merges s a.label.signal a.content b.content (a.content.merge a.label.signal b.content s)) :
    MergesAll s signal [a] [b] ((b.mergeInto a s).map fun n => [n]) := by
  simpa [Merged.unchanged, Merged.map] using cons h (.nil _ signal)

end MergesAll

theorem Node.mergeMembers_merges {as : List (Node Cell)} {bs : List (Node Ty)}
    (hlength : as.length = bs.length)
    (h : ∀ p ∈ as.zip bs, ∀ signal s, Merges s signal p.1.content p.2.content
      (p.1.content.merge signal p.2.content s)) (signal : SignalId) (s : Signals) :
    MergesAll s signal as bs (Node.mergeMembers bs as s) := by
  induction as generalizing bs s with
  | nil =>
    cases bs with
    | nil => exact .nil s signal
    | cons b bs => cases hlength
  | cons a as ih =>
    cases bs with
    | nil => cases hlength
    | cons b bs =>
      rw [List.zip_cons_cons, List.forall_mem_cons] at h
      rw [mergeMembers]
      exact .cons (h.1 _ s) (ih (Nat.succ.inj hlength) h.2 _)

/-- Elements without a partner are planted, or dropped. -/
theorem Node.mergeElements_merges {as : List (Node Cell)} {bs : List (Node Ty)}
    (hnumber : ∀ b ∈ bs, b.content.NanFree)
    (h : ∀ p ∈ as.zip bs, ∀ signal s, Merges s signal p.1.content p.2.content
      (p.1.content.merge signal p.2.content s)) (signal : SignalId) (s : Signals) :
    MergesAll s signal as bs (Node.mergeElements signal bs as s) := by
  induction bs generalizing as s with
  | nil =>
    have hbelow : changedAll as [] = [] := by cases as <;> rfl
    rw [mergeElements]
    exact ⟨.drop s _, by simp, rfl, by cases as <;> rfl, by simp, by rw [hbelow]; rfl,
      by simp [hbelow]⟩
  | cons b bs ih =>
    rw [List.forall_mem_cons] at hnumber
    cases as with
    | cons a as =>
      rw [List.zip_cons_cons, List.forall_mem_cons] at h
      rw [mergeElements]
      exact .cons (h.1 _ s) (ih hnumber.2 h.2 _)
    | nil =>
      have hplanted := b.planted signal s
      have hrest : MergesAll (b.plant signal s).2 signal [] bs _ := ih hnumber.2 (by simp) _
      rw [mergeElements]
      refine ⟨?_, ?_, ?_, rfl, by simp, ?_, List.nil_subset _⟩
      · have hkeeps := hplanted.keeps.append hrest.keeps
        simpa [Node.labelsAll] using hkeeps
      · intro hlt _
        have hlt' := hlt.trans_le hplanted.keeps.grows.size
        refine List.forall_mem_cons.2 ⟨?_, hrest.linked hlt' (by simp)⟩
        exact (hplanted.linked hlt _ List.mem_cons_self).mono hrest.keeps.grows.toExtends
      · rw [equalsAll, hrest.equal, equals_eq, ← Content.equals_relabel_left HasType.type,
          ← content_relabel, relabel_plant, Content.equals_self.2 hnumber.1]
        rfl
      · rw [hrest.called]; rfl

/-- Merging is exact between alike contents. -/
theorem Content.Alike.merges {current : Content Cell} {staged : Content Ty}
    (h : current.Alike staged) (signal : SignalId) (s : Signals) :
    Merges s signal current staged (current.merge signal staged s) := by
  have only {c d : Content Cell} (hc : c.children = []) : c.changedBelow d = [] :=
    changedBelow_of_children hc d
  induction h generalizing signal s with
  | bool a b =>
    exact .leaf rfl (only rfl) (by simp [equals]) (by simp [equals, bne]) (by simp; exact Eq.symm)
  | ints as bs => exact .leaf rfl (only rfl) (by simp [equals]) rfl (by simp; exact Eq.symm)
  | @reals as bs number =>
    have hself : equalReals bs bs = true := (equalReals_iff bs bs).2 ⟨number, rfl⟩
    rw [merge]
    cases heq : equalReals as bs with
    | true => exact .leaf rfl (only rfl) heq (by rw [equals, heq]; rfl) fun _ => rfl
    | false => exact .leaf rfl (only rfl) hself (by rw [equals, heq]; rfl) (by simp)
  | text a b => exact .leaf rfl (only rfl) (by simp [equals]) rfl (by simp; exact Eq.symm)
  | item i j => exact .leaf rfl (only rfl) (by simp [equals]) rfl (by simp; exact Eq.symm)
  | empty => exact .leaf rfl (only rfl) rfl rfl fun _ => rfl
  | emptied a => exact .leaf rfl rfl rfl rfl (by simp)
  | @filled b number =>
    have hnumber : (Content.optional (some b)).NanFree := .intro (by simp) (by simpa [children])
    exact .planted hnumber rfl fun tree _ => only rfl
  | @optional a b inner ih =>
    rw [merge]
    exact .of_children (.single (ih _ s)) rfl rfl (by simp [equals, Node.equalsAll, Merged.map])
      (by simp [equals, Node.equalsAll]) (by simp [Merged.map])
      (by simp [changedBelow, Node.changedAll, Merged.map])
  | @switched i j a b index number =>
    have hnumber : (Content.variant j b).NanFree := .intro (by simp) (by simpa [children])
    have hother (tree : Content Cell) (htree : tree.relabel HasType.type = .variant j b) :
        changedBelow (.variant i a) tree = [] := by
      rcases tree with _ | _ | _ | _ | _ | (_ | _) | ⟨k, n⟩ | _ | _ <;> cases htree
      rw [changedBelow, if_neg index]
    rw [merge, if_neg index]
    exact .planted hnumber (by simp [equals, index]) hother
  | variant i inner ih =>
    rw [merge, if_pos rfl]
    exact .of_children (.single (ih _ s)) rfl rfl (by simp [equals, Node.equalsAll, Merged.map])
      (by simp [equals, Node.equalsAll]) (by simp [Merged.map])
      (by simp [changedBelow, Node.changedAll, Merged.map])
  | struct length inner ih =>
    rw [merge]
    exact .of_children (Node.mergeMembers_merges length ih signal s) rfl rfl rfl rfl
      (congrArg Content.struct) rfl
  | array number inner ih =>
    rw [merge]
    exact .of_children (Node.mergeElements_merges number ih signal s) rfl rfl rfl rfl
      (congrArg Content.array) rfl

variable {K : Set Ty} {next : Nat}

namespace Node.Suits

variable {α β : Type} [HasType α] [HasType β] {declared : Ty}

/-- Where `b` goes in the place of `a`, its content is content for the type of `a`. -/
theorem content_of (hK : Catalog K next) {a : Node α} {b : Node β} (ha : a.Suits K declared)
    (hb : b.Suits K declared) : b.content.Typed K a.type :=
  hb.content.of_compatible hK hb.type_mem ha.type_mem
    (Ty.compatible_trans hb.type (Ty.compatible_symm ha.type))

end Node.Suits

namespace Content

/-- Children that may stand in one place are alike. -/
def ChildrenAlike (current : Content Cell) (staged : Content Ty) : Prop :=
  ∀ a ∈ current.children, ∀ b ∈ staged.children, ∀ u, a.type.compatible u = true → b.type.compatible u = true →
    a.content.Alike b.content

namespace Fits

variable {t : Ty}

theorem child_nanFree {staged : Content Ty} (h : staged.Fits t) {b : Node Ty} (hb : b ∈ staged.children) :
    b.content.NanFree := (h.child hb).nanFree

theorem alike_optional {a : Option (Node Cell)} {b : Option (Node Ty)} (ha : (Content.optional a).Fits t)
    (hb : (Content.optional b).Fits t) (h : ChildrenAlike (.optional a) (.optional b)) :
    Alike (.optional a) (.optional b) := by
  cases ha with
  | empty =>
    cases b with
    | none => exact .empty
    | some b => exact .filled (hb.child_nanFree List.mem_cons_self)
  | @some _ _ a shape hau =>
    cases hb with
    | empty => exact .emptied a
    | some shape' hbu =>
      cases shape.symm.trans shape'
      exact .optional (h _ List.mem_cons_self _ List.mem_cons_self _ hau hbu)

theorem alike_variant {i j : Nat} {a : Node Cell} {b : Node Ty} (ha : (Content.variant i a).Fits t)
    (hb : (Content.variant j b).Fits t) (h : ChildrenAlike (.variant i a) (.variant j b)) :
    Alike (.variant i a) (.variant j b) := by
  by_cases hij : i = j
  case neg => exact .switched a hij (hb.child_nanFree List.mem_cons_self)
  case pos =>
    subst hij
    cases ha with
    | variant shape index hau =>
      cases hb with
      | variant shape' index' hbu =>
        cases shape.symm.trans shape'
        cases index.symm.trans index'
        exact .variant i (h _ List.mem_cons_self _ List.mem_cons_self _ hau hbu)

theorem alike_struct {as : List (Node Cell)} {bs : List (Node Ty)} (ha : (Content.struct as).Fits t)
    (hb : (Content.struct bs).Fits t) (h : ChildrenAlike (.struct as) (.struct bs)) :
    Alike (.struct as) (.struct bs) := by
  cases ha with
  | struct shape has =>
    cases hb with
    | struct shape' hbs =>
      cases shape.symm.trans shape'
      refine .struct (has.length_eq.trans hbs.length_eq.symm) fun p hp => ?_
      obtain ⟨u, -, hau, hbu⟩ := forall₂_zip has hbs p hp
      have hmem := List.of_mem_zip hp
      exact h _ hmem.1 _ hmem.2 u hau hbu

theorem alike_array {as : List (Node Cell)} {bs : List (Node Ty)} (ha : (Content.array as).Fits t)
    (hb : (Content.array bs).Fits t) (h : ChildrenAlike (.array as) (.array bs)) :
    Alike (.array as) (.array bs) := by
  have number (b : Node Ty) (hmem : b ∈ bs) : b.content.NanFree := hb.child_nanFree hmem
  cases ha with
  | array shape has =>
    cases hb with
    | array shape' hbs =>
      cases shape.symm.trans shape'
      refine .array number fun p hp => ?_
      have hmem := List.of_mem_zip hp
      exact h _ hmem.1 _ hmem.2 _ (has _ hmem.1) (hbs _ hmem.2)

theorem alike_of_children {current : Content Cell} {staged : Content Ty} (hcurrent : current.Fits t)
    (hstaged : staged.Fits t) (h : ChildrenAlike current staged) : current.Alike staged := by
  have hkind : current.kind = staged.kind := hcurrent.kind.trans hstaged.kind.symm
  cases current with
  | bool a => cases staged with | bool b => exact .bool a b | _ => cases hkind
  | ints as => cases staged with | ints bs => exact .ints as bs | _ => cases hkind
  | reals as =>
    cases staged with
    | reals bs => exact .reals as ((nanFree_iff.1 hstaged.nanFree).1 bs rfl)
    | _ => cases hkind
  | text a => cases staged with | text b => exact .text a b | _ => cases hkind
  | item i => cases staged with | item j => exact .item i j | _ => cases hkind
  | optional a => cases staged with | optional b => exact alike_optional hcurrent hstaged h | _ => cases hkind
  | variant i a => cases staged with | variant j b => exact alike_variant hcurrent hstaged h | _ => cases hkind
  | struct as => cases staged with | struct bs => exact alike_struct hcurrent hstaged h | _ => cases hkind
  | array as => cases staged with | array bs => exact alike_array hcurrent hstaged h | _ => cases hkind

/-- Contents that fit one type, over the types of a catalog. -/
theorem alike (hK : Catalog K next) {current : Content Cell} {staged : Content Ty} (hcurrent : current.Fits t)
    (hstaged : staged.Fits t) (hlive : ∀ c ∈ current.labels, c.type ∈ K) (hknown : ∀ u ∈ staged.labels, u ∈ K) :
    current.Alike staged := by
  induction current using Content.inductOn generalizing t staged with
  | step current ih =>
    refine alike_of_children hcurrent hstaged fun a ha b hb u hau hbu => ?_
    have hfits : b.content.Fits a.type :=
      hK.fits (hknown _ (mem_labels hb b.label_mem_labels)) (hlive _ (mem_labels ha a.label_mem_labels))
        (Ty.compatible_trans hbu (Ty.compatible_symm hau)) (hstaged.child hb)
    refine ih a ha (hcurrent.child ha) hfits (fun c hc => ?_) fun v hv => ?_
    · exact hlive c (mem_labels ha (by rw [Node.labels_eq]; exact List.mem_cons_of_mem _ hc))
    · exact hknown v (mem_labels hb (by rw [Node.labels_eq]; exact List.mem_cons_of_mem _ hv))

end Fits

end Content

theorem Content.Typed.alike (hK : Catalog K next) {t : Ty} {current : Content Cell}
    {staged : Content Ty} (hcurrent : current.Typed K t) (hstaged : staged.Typed K t) :
    current.Alike staged :=
  hcurrent.fits.alike hK hstaged.fits hcurrent.labels hstaged.labels

theorem Node.mergeInto_suits (hK : Catalog K next) {declared : Ty} {a : Node Cell} {b : Node Ty}
    (ha : a.Suits K declared) (hb : b.Suits K declared)
    (ih : ∀ t signal s, a.content.Typed K t → b.content.Typed K t →
      (a.content.merge signal b.content s).tree.Typed K t) (s : Signals) :
    (b.mergeInto a s).tree.Suits K declared := by
  rw [mergeInto_eq]
  exact ⟨typed_mk ha.type_mem (ih _ _ _ ha.content (ha.content_of hK hb)), ha.type⟩

theorem Node.mergeMembers_suits (hK : Catalog K next) {as : List (Node Cell)} {bs : List (Node Ty)}
    {ms : List Member} (has : List.Forall₂ (fun n m => n.Suits K m.type) as ms)
    (hbs : List.Forall₂ (fun n m => n.Suits K m.type) bs ms)
    (ih : ∀ p ∈ as.zip bs, ∀ t signal s, p.1.content.Typed K t → p.2.content.Typed K t →
      (p.1.content.merge signal p.2.content s).tree.Typed K t) (s : Signals) :
    List.Forall₂ (fun n m => n.Suits K m.type) (Node.mergeMembers bs as s).tree ms := by
  induction has generalizing bs s with
  | nil => cases hbs; exact .nil
  | cons ha _ ihs =>
    cases hbs with
    | cons hb hbs =>
      rw [List.zip_cons_cons, List.forall_mem_cons] at ih
      rw [mergeMembers]
      exact .cons (mergeInto_suits hK ha hb ih.1 s) (ihs hbs ih.2 _)

theorem Node.plant_suits {declared : Ty} {n : Node Ty} (h : n.Suits K declared)
    (signal : SignalId) (s : Signals) : (n.plant signal s).1.Suits K declared := by
  rw [← suits_relabel, relabel_plant]
  exact h

theorem Node.mergeElements_suits (hK : Catalog K next) {declared : Ty} {as : List (Node Cell)}
    {bs : List (Node Ty)} (has : ∀ n ∈ as, n.Suits K declared) (hbs : ∀ n ∈ bs, n.Suits K declared)
    (ih : ∀ p ∈ as.zip bs, ∀ t signal s, p.1.content.Typed K t → p.2.content.Typed K t →
      (p.1.content.merge signal p.2.content s).tree.Typed K t) (signal : SignalId) (s : Signals) :
    ∀ n ∈ (Node.mergeElements signal bs as s).tree, n.Suits K declared := by
  induction bs generalizing as s with
  | nil => rw [mergeElements]; simp
  | cons b bs ihs =>
    rw [List.forall_mem_cons] at hbs
    cases as with
    | nil =>
      rw [mergeElements]
      exact List.forall_mem_cons.2 ⟨plant_suits hbs.1 signal s, ihs (by simp) hbs.2 (by simp) _⟩
    | cons a as =>
      rw [List.forall_mem_cons] at has
      rw [List.zip_cons_cons, List.forall_mem_cons] at ih
      rw [mergeElements]
      exact List.forall_mem_cons.2 ⟨mergeInto_suits hK has.1 hbs.1 ih.1 s, ihs has.2 hbs.2 ih.2 _⟩

theorem Content.plant_typed {t : Ty} {c : Content Ty} (h : c.Typed K t) (signal : SignalId)
    (s : Signals) : (c.plant signal s).1.Typed K t := by
  rw [← typed_relabel, (c.plant_planted signal s).1]
  exact h

/-- Content that mixes kept nodes with planted ones is typed as both were: the types of the two agree
up to aliases wherever they meet. -/
theorem Content.Alike.merge_typed (hK : Catalog K next) {t : Ty} {current : Content Cell}
    {staged : Content Ty} (h : current.Alike staged) (hcurrent : current.Typed K t)
    (hstaged : staged.Typed K t) (signal : SignalId) (s : Signals) :
    (current.merge signal staged s).tree.Typed K t := by
  induction h generalizing t signal s with
  | bool a b => exact plant_typed hstaged signal s
  | ints as bs => exact plant_typed hstaged signal s
  | @reals as bs number =>
    rw [merge]
    split
    · exact hcurrent
    · exact plant_typed hstaged signal s
  | text a b => exact plant_typed hstaged signal s
  | item i j => exact plant_typed hstaged signal s
  | empty => exact plant_typed hstaged signal s
  | emptied a => exact plant_typed hstaged signal s
  | filled number => exact plant_typed hstaged signal s
  | optional inner ih =>
    cases hcurrent.fits with
    | some shape =>
      exact .optional shape (Node.mergeInto_suits hK (hcurrent.suits_of_some shape)
        (hstaged.suits_of_some shape) (fun _ signal s ha hb => ih ha hb signal s) s)
  | @switched i j a b index number =>
    rw [merge, if_neg index]
    exact plant_typed hstaged signal s
  | variant i inner ih =>
    rw [merge, if_pos rfl]
    cases hcurrent.fits with
    | variant shape index =>
      exact .variant shape index (Node.mergeInto_suits hK (hcurrent.suits_of_variant shape index)
        (hstaged.suits_of_variant shape index) (fun _ signal s ha hb => ih ha hb signal s) s)
  | struct length inner ih =>
    cases hcurrent.fits with
    | struct shape =>
      exact .struct shape (Node.mergeMembers_suits hK (hcurrent.suits_of_struct shape)
        (hstaged.suits_of_struct shape) (fun p hp _ signal s ha hb => ih p hp ha hb signal s) s)
  | array number inner ih =>
    cases hcurrent.fits with
    | array shape =>
      exact .array shape (Node.mergeElements_suits hK (hcurrent.suits_of_array shape)
        (hstaged.suits_of_array shape) (fun p hp _ signal s ha hb => ih p hp ha hb signal s) signal s)

end TypedValues
