import TypedValues.Proofs.Agreement
import TypedValues.Proofs.Lossless

/-! Equality of values. Contents of compatible types that are equal are written alike, whatever aliases
they and the nodes below them carry. -/

namespace TypedValues

mutual

/-- The document with every negative zero made positive. -/
def Document.unsigned : Document → Document
  | .null => .null
  | .bool b => .bool b
  | .int z => .int z
  | .real v => .real v.unsigned
  | .text s => .text s
  | .array items => .array (Document.unsignedAll items)
  | .object fields => .object (Field.unsignedAll fields)

def Document.unsignedAll : List Document → List Document
  | [] => []
  | d :: ds => d.unsigned :: Document.unsignedAll ds

def Field.unsignedAll : List Field → List Field
  | [] => []
  | ⟨key, value⟩ :: rest => ⟨key, value.unsigned⟩ :: Field.unsignedAll rest

end

/-- Documents that differ in signs of zero at most. -/
def Document.Same (d e : Document) : Prop := d.unsigned = e.unsigned

def Field.Same (f g : Field) : Prop := f.key = g.key ∧ f.value.Same g.value

theorem Document.same_array {ds es : List Document} (h : List.Forall₂ Document.Same ds es) :
    (Document.array ds).Same (.array es) := by
  have hall : unsignedAll ds = unsignedAll es := by
    induction h with
    | nil => rfl
    | cons hde _ ih => rw [unsignedAll, unsignedAll, show _ = _ from hde, ih]
  rw [Same, unsigned, unsigned, hall]

theorem Document.same_object {fs gs : List Field} (h : List.Forall₂ Field.Same fs gs) :
    (Document.object fs).Same (.object gs) := by
  have hall : Field.unsignedAll fs = Field.unsignedAll gs := by
    induction h with
    | nil => rfl
    | @cons f g _ _ hfg _ ih =>
      rcases f with ⟨key, value⟩
      rcases g with ⟨key', value'⟩
      obtain ⟨rfl, hvalue⟩ : key = key' ∧ value.unsigned = value'.unsigned := hfg
      rw [Field.unsignedAll, Field.unsignedAll, hvalue, ih]
  rw [Same, unsigned, unsigned, hall]

/-- A relation of documents that goes part by part, with their reals related by `P`. -/
structure Document.Congruence (P : Real64 → Real64 → Prop) (R : Document → Document → Prop) : Prop where
  refl : ∀ d, R d d
  real : ∀ v w, P v w → v.isFinite = w.isFinite ∧ R (.real v) (.real w)
  array : ∀ ds es, List.Forall₂ R ds es → R (.array ds) (.array es)
  object : ∀ fs gs, List.Forall₂ (fun f g => f.key = g.key ∧ R f.value g.value) fs gs →
    R (.object fs) (.object gs)

theorem Real64.isFinite_unsigned (v : Real64) : v.unsigned.isFinite = v.isFinite := by
  cases v <;> rfl

theorem Document.congruence_same : Congruence (fun v w => v.unsigned = w.unsigned) Same where
  refl _ := rfl
  real v w h := ⟨by rw [← Real64.isFinite_unsigned, h, Real64.isFinite_unsigned],
    by rw [Same, unsigned, unsigned, h]⟩
  array _ _ := same_array
  object _ _ := same_object

theorem Document.congruence_eq : Congruence Eq Eq where
  refl _ := rfl
  real v w h := ⟨by rw [h], by rw [h]⟩
  array ds es h := by
    rw [List.forall₂_eq_eq_eq] at h
    rw [h]
  object fs gs h := by
    have hfields : List.Forall₂ Eq fs gs := h.imp fun f g hfg => by
      rcases f with ⟨key, value⟩
      rcases g with ⟨key', value'⟩
      obtain ⟨rfl, rfl⟩ := hfg
      rfl
    rw [List.forall₂_eq_eq_eq] at hfields
    rw [hfields]

/-- The contents are of one form, with their reals related by `P`; what is below does not count. -/
inductive Content.Parallel (P : Real64 → Real64 → Prop) : Content Ty → Content Ty → Prop where
  | bool (b : Bool) : Parallel P (.bool b) (.bool b)
  | ints (zs : List Int) : Parallel P (.ints zs) (.ints zs)
  | reals {vs ws : List Real64} (h : List.Forall₂ P vs ws) : Parallel P (.reals vs) (.reals ws)
  | text (s : String) : Parallel P (.text s) (.text s)
  | item (i : Nat) : Parallel P (.item i) (.item i)
  | empty : Parallel P (.optional none) (.optional none)
  | some (n m : Node Ty) : Parallel P (.optional (some n)) (.optional (some m))
  | variant (i : Nat) (n m : Node Ty) : Parallel P (.variant i n) (.variant i m)
  | struct (ns ms : List (Node Ty)) : Parallel P (.struct ns) (.struct ms)
  | array (ns ms : List (Node Ty)) : Parallel P (.array ns) (.array ms)

theorem Content.Parallel.refl (c : Content Ty) : c.Parallel Eq c := by
  rcases c with _ | _ | _ | _ | _ | (_ | _) | _ | _ | _ <;> constructor
  exact List.forall₂_same.2 fun _ _ => rfl

/-- Equal contents are of one form, up to signs of zero. -/
theorem Content.Parallel.of_normal {a b : Content Ty} (h : a.normal = b.normal) :
    a.Parallel (fun v w => v.unsigned = w.unsigned) b := by
  have hkind : a.kind = b.kind := by rw [← kind_normal, h, kind_normal]
  cases a with
  | bool x =>
    cases b with
    | bool => exact Content.bool.inj h ▸ .bool x
    | _ => cases hkind
  | ints zs =>
    cases b with
    | ints => exact Content.ints.inj h ▸ .ints zs
    | _ => cases hkind
  | reals vs =>
    cases b with
    | reals ws =>
      have hreals := Content.reals.inj h
      rw [← List.forall₂_eq_eq_eq, List.forall₂_map_left_iff, List.forall₂_map_right_iff] at hreals
      exact .reals hreals
    | _ => cases hkind
  | text x =>
    cases b with
    | text => exact Content.text.inj h ▸ .text x
    | _ => cases hkind
  | item i =>
    cases b with
    | item => exact Content.item.inj h ▸ .item i
    | _ => cases hkind
  | optional inner =>
    cases b with
    | optional inner' =>
      rcases inner with _ | n <;> rcases inner' with _ | m
      · exact .empty
      · simp [normal] at h
      · simp [normal] at h
      · exact .some n m
    | _ => cases hkind
  | variant i n =>
    cases b with
    | variant j m => exact (Content.variant.inj h).1 ▸ .variant i n m
    | _ => cases hkind
  | struct ns =>
    cases b with
    | struct ms => exact .struct ns ms
    | _ => cases hkind
  | array ns =>
    cases b with
    | array ms => exact .array ns ms
    | _ => cases hkind

section

variable {P : Real64 → Real64 → Prop} {R : Document → Document → Prop}

theorem encodeComponents_agrees (hR : Document.Congruence P R)
    {α β : Type} {f : α → Except Error Document} {g : β → Except Error Document} {as : List α} {bs : List β}
    (h : List.Forall₂ (fun a b => Except.Agrees R (f a) (g b)) as bs) :
    Except.Agrees R (encodeComponents f as) (encodeComponents g bs) := by
  have hmany := (Except.Agrees.mapM h).bind (S := R) (f := fun ds => pure (.array ds))
    (g := fun es => pure (.array es)) fun ds es hall => .pure (hR.array ds es hall)
  cases h with
  | nil => exact hmany
  | cons hab h =>
    cases h with
    | nil => exact hab
    | cons _ _ => exact hmany

theorem encodeInt_agrees (hR : Document.Congruence P R) (t u : Ty) (z : Int) :
    Except.Agrees R (encodeInt t z) (encodeInt u z) := by
  unfold encodeInt
  split
  · exact .ok (hR.refl _)
  · exact .dataAt ..

theorem encodeReal_agrees (hR : Document.Congruence P R) (t u : Ty) {v w : Real64} (h : P v w) :
    Except.Agrees R (encodeReal t v) (encodeReal u w) := by
  obtain ⟨hfinite, hreal⟩ := hR.real v w h
  unfold encodeReal
  rw [hfinite]
  split
  · exact .ok hreal
  · exact .dataAt ..

theorem encodeElements_agrees {ns ms : List (Node Ty)} (i : Nat)
    (h : List.Forall₂ (fun n m => Except.Agrees R (encode n.type n.content) (encode m.type m.content)) ns ms) :
    Except.Agrees (List.Forall₂ R) (encodeElements i ns) (encodeElements i ms) := by
  induction h generalizing i with
  | nil => exact .ok .nil
  | cons hnm _ ih =>
    rw [encodeElements, encodeElements, encodeNode_eq, encodeNode_eq]
    exact (hnm.underSite _ _).bind fun d e hde => (ih (i + 1)).bind fun ds es hall =>
      .pure (.cons hde hall)

theorem encodeMembers_agrees {as bs : List Member} (hnames : as.map (·.name) = bs.map (·.name))
    {ns ms : List (Node Ty)}
    (h : List.Forall₂ (fun n m => Except.Agrees R (encode n.type n.content) (encode m.type m.content)) ns ms) :
    Except.Agrees (List.Forall₂ fun f g => f.key = g.key ∧ R f.value g.value)
      (encodeMembers as ns) (encodeMembers bs ms) := by
  induction h generalizing as bs with
  | nil => exact .ok .nil
  | cons hnm _ ih =>
    rcases as with _ | ⟨a, as⟩ <;> rcases bs with _ | ⟨b, bs⟩
    · exact .ok .nil
    · cases hnames
    · cases hnames
    · obtain ⟨hname, hnames⟩ := List.cons.inj hnames
      rw [encodeMembers, encodeMembers, encodeNode_eq, encodeNode_eq]
      exact (hnm.underSite _ _).bind fun d e hde => (ih hnames).bind fun fs gs hall =>
        .pure (.cons ⟨hname, hde⟩ hall)

/-- Contents of one form whose children are written alike are written alike, for types of one source. -/
theorem Content.Parallel.encode_agrees (hR : Document.Congruence P R) {t u : Ty}
    (hcore : t.shape.core = u.shape.core) {a b : Content Ty} (h : a.Parallel P b)
    (below : List.Forall₂ (fun n m => Except.Agrees R (encode n.type n.content) (encode m.type m.content))
      a.children b.children) : Except.Agrees R (encode t a) (encode u b) := by
  cases h with
  | bool | text | empty =>
    rw [encode, encode]
    exact .ok (hR.refl _)
  | ints zs =>
    rw [encode, encode]
    exact encodeComponents_agrees hR (List.forall₂_same.2 fun z _ => encodeInt_agrees hR t u z)
  | reals h =>
    rw [encode, encode]
    exact encodeComponents_agrees hR (h.imp fun _ _ => encodeReal_agrees hR t u)
  | item i =>
    have hitem : ItemRef.item? ⟨t, i⟩ = ItemRef.item? ⟨u, i⟩ := by
      rw [ItemRef.item?, ItemRef.item?, ← Shape.enum?_core, hcore, Shape.enum?_core]
    rw [encode, encode, hitem]
    split
    · exact .ok (hR.refl _)
    · exact .dataAt ..
  | some n m =>
    rw [encode_some, encode_some]
    exact (List.forall₂_cons.1 below).1
  | variant i n m =>
    have harguments : t.shape.arguments = u.shape.arguments := by
      rw [← Shape.arguments_core, hcore, Shape.arguments_core]
    rw [encode, encode, harguments, encodeNode_eq, encodeNode_eq]
    split
    · refine (List.forall₂_cons.1 below).1.bind fun d e hde => .pure (hR.object _ _ ?_)
      exact .cons ⟨rfl, hR.refl _⟩ (.cons ⟨rfl, hde⟩ .nil)
    · exact .dataAt ..
  | struct ns ms =>
    have hnames : t.shape.members.map (·.name) = u.shape.members.map (·.name) := by
      rw [← Shape.map_members_core t.shape _ fun _ => rfl, hcore, Shape.map_members_core _ _ fun _ => rfl]
    rw [encode, encode]
    exact (encodeMembers_agrees hnames below).bind fun fs gs hall => .pure (hR.object fs gs hall)
  | array ns ms =>
    rw [encode, encode]
    exact (encodeElements_agrees 0 below).bind fun ds es hall => .pure (hR.array ds es hall)

end

namespace Content

variable {K : Set Ty} {next : Nat} {t u : Ty} {a b : Content Ty}

theorem forall₂_of_normal {ns ms : List (Node Ty)} (h : ns.map Node.normal = ms.map Node.normal) :
    List.Forall₂ (fun n m => n.content.normal = m.content.normal) ns ms := by
  rw [← List.forall₂_eq_eq_eq, List.forall₂_map_left_iff, List.forall₂_map_right_iff] at h
  exact h.imp fun n m hnm => Node.normal_inj.1 hnm

theorem children_of_normal (h : a.normal = b.normal) :
    List.Forall₂ (fun n m => n.content.normal = m.content.normal) a.children b.children := by
  have hchildren := congrArg children h
  rw [children_normal, children_normal] at hchildren
  exact forall₂_of_normal hchildren

/-- Children in one place of equal contents are declared with one type. -/
theorem Fits.peers (hcore : t.shape.core = u.shape.core) (ha : a.Fits t) (hb : b.Fits u)
    (h : a.normal = b.normal) :
    List.Forall₂ (fun n m => n.type.compatible m.type = true) a.children b.children := by
  have hlength := (children_of_normal h).length_eq
  have leaf (hnone : a.children = []) :
      List.Forall₂ (fun n m => n.type.compatible m.type = true) a.children b.children := by
    rw [hnone] at hlength ⊢
    rw [List.length_eq_zero_iff.1 hlength.symm]
    exact .nil
  have joined {x y declared : Ty} (hx : x.compatible declared = true) (hy : y.compatible declared = true) :
      x.compatible y = true := Ty.compatible_trans hx (Ty.compatible_symm hy)
  cases ha with
  | some shape type =>
    cases hb with
    | some shape' type' =>
      cases (Shape.eq_of_core_eq hcore shape).symm.trans shape'
      exact .cons (joined type type') .nil
    | _ => simp [normal] at h
  | variant shape index type =>
    cases hb with
    | variant shape' index' type' =>
      cases (Shape.eq_of_core_eq hcore shape).symm.trans shape'
      obtain rfl : _ = _ := (Content.variant.inj h).1
      cases index.symm.trans index'
      exact .cons (joined type type') .nil
    | _ => simp [normal] at h
  | struct shape types =>
    obtain ⟨members', hs, htypes, -⟩ := Shape.exists_struct_of_core_eq hcore shape
    cases hb with
    | struct shape' types' =>
      cases hs.symm.trans shape'
      rw [htypes] at types'
      refine List.forall₂_iff_zip.2 ⟨hlength, fun hp => ?_⟩
      obtain ⟨_, _, hn, hm⟩ := forall₂_zip types types' _ hp
      exact joined hn hm
    | _ => simp [normal] at h
  | array shape types =>
    cases hb with
    | array shape' types' =>
      cases (Shape.eq_of_core_eq hcore shape).symm.trans shape'
      refine List.forall₂_iff_zip.2 ⟨hlength, fun hp => ?_⟩
      obtain ⟨hn, hm⟩ := List.of_mem_zip hp
      exact joined (types _ hn) (types' _ hm)
    | _ => simp [normal] at h
  | _ => exact leaf rfl

/-- Equal contents of compatible types are written alike, whatever aliases the nodes below carry. -/
theorem encode_agrees (hK : Catalog K next) (ht : t ∈ K) (hu : u ∈ K) (hcompat : t.compatible u = true)
    (ha : a.Typed K t) (hb : b.Typed K u) (h : a.normal = b.normal) :
    Except.Agrees Document.Same (encode t a) (encode u b) := by
  induction a using Content.inductOn generalizing t u b with
  | step a ih =>
    have hcore := hK.core_eq ht hu hcompat
    have below : List.Forall₂ (fun n m =>
        Except.Agrees Document.Same (encode n.type n.content) (encode m.type m.content))
        a.children b.children := by
      have hequal := children_of_normal h
      have hpeers := List.forall₂_iff_zip.1 (ha.fits.peers hcore hb.fits h)
      refine List.forall₂_iff_zip.2 ⟨hpeers.1, fun {n m} hp => ?_⟩
      obtain ⟨hn, hm⟩ := List.of_mem_zip hp
      exact ih n hn (ha.child hn).type_mem (hb.child hm).type_mem (hpeers.2 hp) (ha.child hn).content
        (hb.child hm).content ((List.forall₂_iff_zip.1 hequal).2 hp)
    exact (Parallel.of_normal h).encode_agrees Document.congruence_same hcore below

end Content

namespace Holder

variable {α β : Type} [HasType α] [HasType β]

theorem constructed_gives {h : Holder α} {c : Content α} (hc : h.content = some c) :
    h.constructed.Gives c := by
  rw [constructed, hc]
  exact Attempt.gives_pure c

theorem isEqual_snapshot (h : Holder α) (other : Holder β) :
    h.snapshot.isEqual other.snapshot = h.isEqual other := by
  refine Attempt.ext (funext fun p => ?_)
  rcases h with ⟨l, _ | c⟩
  · cases p <;> rfl
  · rcases other with ⟨m, _ | d⟩
    · rfl
    · have hequal : (c.relabel HasType.type).equals (d.relabel HasType.type) = c.equals d := by
        rw [Content.equals_relabel_left, Bool.eq_iff_iff, Content.equals_iff, Content.equals_iff,
          Content.normal_relabel]
      simp only [isEqual, constructed, snapshot, Option.map_some, pure_bind, hequal]
      rfl

theorem tryClone_gives {h : Holder α} {c : Content α} (hc : h.content = some c) :
    h.tryClone.Gives h.snapshot := (constructed_gives hc).bind (Attempt.gives_pure _)

theorem tryClone_snapshot (h : Holder α) : h.snapshot.tryClone = h.tryClone := by
  refine Attempt.ext (funext fun p => ?_)
  rcases h with ⟨l, _ | c⟩
  · cases p <;> rfl
  · have hrelabel : (c.relabel HasType.type).relabel HasType.type = c.relabel HasType.type :=
      Content.relabel_id _
    simp only [tryClone, constructed, snapshot, Option.map_some, pure_bind, hrelabel]
    rfl

/-- Equality holds between constructed values of compatible types whose contents are equal. -/
theorem isEqual_gives_true {h : Holder α} {other : Holder β} : (h.isEqual other).Gives true ↔
    ∃ c d, h.content = some c ∧ other.content = some d ∧ h.type.compatible other.type = true ∧
      c.equals d = true := by
  constructor
  · intro hgives
    obtain ⟨c, hc, hcompare⟩ := Attempt.bind_eq_ok.1 (hgives .report)
    have hcontent : h.content = some c := by
      unfold constructed at hc
      split at hc
      next c' hc' => cases hc; exact hc'
      next => exact absurd hc Attempt.not_violate_ok
    split at hcompare
    next => exact absurd hcompare Attempt.not_violate_ok
    next d hd =>
      split at hcompare
      next hcompat => exact ⟨c, d, hcontent, hd, hcompat, Outcome.ok.inj hcompare⟩
      next => exact absurd hcompare Attempt.not_fail_ok
  · rintro ⟨c, d, hc, hd, hcompat, hequal⟩
    rw [← hequal]
    exact isEqual_gives hc hd hcompat

theorem ensureUnconstructed_gives {h : Holder α} (hnone : h.isConstructed = false) :
    h.ensureUnconstructed.Gives () := by
  rw [ensureUnconstructed, hnone]
  exact Attempt.gives_pure ()

theorem commit_install (v : Value) (c : Content Ty) (s : Signals) : ∃ after,
    (v.commit [] (.install c) s).tree = ⟨v.label, some after⟩ ∧ after.relabel HasType.type = c := by
  obtain ⟨htree, -⟩ := c.plant_planted v.label.signal s
  refine ⟨(c.plant v.label.signal s).1, ?_, htree⟩
  rcases v with ⟨cell, _ | content⟩ <;> rfl

theorem stageCopy_gives {h : Holder α} {other : Snapshot} {c : Content Ty} (hc : other.content = some c)
    (hcompat : h.type.compatible other.type = true) : (h.stageCopy other).Gives c := by
  rw [stageCopy, hc]
  simp only [hcompat, if_pos]
  exact Attempt.gives_pure c

end Holder

/-- A copy of `v` into a value that is in the state for it. -/
inductive Change.Copies {α : Type} (v : Snapshot) (w : Holder α) : Change → Prop
  | construct (h : w.isConstructed = false) : Copies v w (.copyConstruct v)
  | assign (h : w.isConstructed = true) : Copies v w (.copyAssign v)

namespace Session

/-- What equality promises of the values of a session, live or copied. -/
structure EqualityLaws (s : Session) : Prop where
  live {a b : Value} (ha : s.Part a) (hb : s.Part b) :
    a.isEqual b = a.snapshot.isEqual b.snapshot ∧ a.tryClone = a.snapshot.tryClone
  decides {v w : Snapshot} (hv : s.Has v) (hw : s.Has w) (hvc : v.isConstructed = true)
    (hwc : w.isConstructed = true) (hcompat : v.type.compatible w.type = true) :
    ∃ b, (v.isEqual w).Gives b
  refl {v : Snapshot} (hv : s.Has v) (hvc : v.isConstructed = true) : (v.isEqual v).Gives true
  symm {v w : Snapshot} (hv : s.Has v) (hw : s.Has w) (h : (v.isEqual w).Gives true) :
    (w.isEqual v).Gives true
  trans {v w x : Snapshot} (hv : s.Has v) (hw : s.Has w) (hx : s.Has x)
    (h : (v.isEqual w).Gives true) (h' : (w.isEqual x).Gives true) : (v.isEqual x).Gives true
  clone {v : Snapshot} (hv : s.Has v) (hvc : v.isConstructed = true) :
    ∃ w, v.tryClone.Gives w ∧ s.Has w ∧ (w.isEqual v).Gives true
  copy {v : Snapshot} (hv : s.Has v) (hvc : v.isConstructed = true) {label : String}
    {walk : List Access} {root w : Value} {location : Location}
    (hroot : s.values.get? label = some root)
    (hwalk : ((root.reachAll walk).run s.policy).outcome = .ok (location, w))
    (hcompat : w.type.compatible v.type = true) {c : Change} (hc : c.Copies v w) :
    ((change label walk c).run s).2.outcome = .ok none ∧ ∃ root' w',
      ((change label walk c).run s).1.values.get? label = some root' ∧
      root'.part? location = some w' ∧ w'.label = w.label ∧ (w'.isEqual v).Gives true
  written {v w : Snapshot} (hv : s.Has v) (hw : s.Has w) (h : (v.isEqual w).Gives true)
    {a b : Content Ty} (ha : v.content = some a) (hb : w.content = some b) :
    Except.Agrees Document.Same (encode v.type a) (encode w.type b)

variable {s : Session}

/-- A copy is carried out, and what it is made into is equal to what it is made from. -/
theorem change_copies (hs : s.Reachable) {v : Snapshot} (hv : s.Has v) {content : Content Ty}
    (hcontent : v.content = some content) {label : String} {walk : List Access} {root w : Value}
    {location : Location} (hroot : s.values.get? label = some root)
    (hwalk : ((root.reachAll walk).run s.policy).outcome = .ok (location, w))
    (hcompat : w.type.compatible v.type = true) {c : Change} (hc : c.Copies v w) :
    ((change label walk c).run s).2.outcome = .ok none ∧ ∃ root' w',
      ((change label walk c).run s).1.values.get? label = some root' ∧
      root'.part? location = some w' ∧ w'.label = w.label ∧ (w'.isEqual v).Gives true := by
  obtain ⟨K, hK⟩ := hs.invariant
  have hself : content.equals content = true :=
    Content.equals_self.2 ((hK.sound.has hv).content content hcontent).fits.nanFree
  have hoperands : ∀ o ∈ c.operands, s.Offers o := by
    intro o ho
    cases hc <;> obtain rfl := List.mem_singleton.1 ho <;> exact hv
  have hcopy := Holder.stageCopy_gives (h := w) hcontent hcompat
  have hcarried {edit : Edit} (hgives : (w.stageChange c).Gives (edit, none)) :=
    change_carried hK hoperands hroot hwalk (hgives s.policy)
  -- the target holds what was copied, whether it is planted or merged
  have hstage : ∃ edit after, (w.stageChange c).Gives (edit, none) ∧
      (root.commit location edit s.signals).tree.part? location = some ⟨w.label, some after⟩ ∧
      after.equals content = true := by
    cases hc with
    | construct h =>
      have hgives : (w.stageChange (.copyConstruct v)).Gives (.install content, none) :=
        (Holder.ensureUnconstructed_gives h).bind (hcopy.bind (Attempt.gives_pure _))
      obtain ⟨-, hpart, -⟩ := hcarried hgives
      rcases Holder.part?_cases hpart with ⟨rfl, rfl, -⟩ | ⟨n, m, -, rfl, -⟩
      · obtain ⟨after, htree, hrelabel⟩ := Holder.commit_install w content s.signals
        refine ⟨_, after, hgives, by rw [htree, Holder.part?_nil], ?_⟩
        rw [← Content.equals_relabel_left HasType.type, hrelabel]
        exact hself
      · cases h
    | assign h =>
      obtain ⟨before, hbefore⟩ := Option.isSome_iff_exists.1 h
      have hgives : (w.stageChange (.copyAssign v)).Gives (.replace content, none) :=
        (Holder.constructed_gives hbefore).bind (hcopy.bind (Attempt.gives_pure _))
      obtain ⟨after, hafter, hedit⟩ := (hcarried hgives).1.target before hbefore
      exact ⟨_, after, hgives, hafter, hedit.replaced content rfl⟩
  obtain ⟨edit, after, hgives, hpart, hequal⟩ := hstage
  rcases change_cases s label walk c with ⟨-, -, -, hrefused⟩ |
    ⟨root', location', w', edit', position, hroot', hwalk', hstage, hafter, -, hok⟩
  · exact absurd (hgives s.policy) (hrefused root location w hroot hwalk _)
  obtain rfl : root' = root := Option.some.inj (hroot'.symm.trans hroot)
  cases hwalk'.symm.trans hwalk
  cases hstage.symm.trans (hgives s.policy)
  exact ⟨hok, _, _, by rw [hafter, Table.get?_put, if_pos rfl], hpart, rfl,
    Holder.isEqual_gives_true.2 ⟨after, content, rfl, hcontent, hcompat, hequal⟩⟩

/-- Equality is an equivalence between the constructed values of compatible types, copies are equal to
what they are made from, and equal values are written alike. -/
theorem equality_laws (hs : s.Reachable) : s.EqualityLaws := by
  obtain ⟨K, hK⟩ := hs.invariant
  have typed {v : Snapshot} (hv : s.Has v) {c : Content Ty} (hc : v.content = some c) :
      c.Typed K v.type := (hK.sound.has hv).content c hc
  have self {v : Snapshot} (hv : s.Has v) (hvc : v.isConstructed = true) : (v.isEqual v).Gives true := by
    obtain ⟨c, hc⟩ := Option.isSome_iff_exists.1 hvc
    exact Holder.isEqual_gives_true.2 ⟨c, c, hc, hc, Ty.compatible_refl _,
      Content.equals_self.2 (typed hv hc).fits.nanFree⟩
  constructor
  case live => exact fun {a b} _ _ => ⟨(a.isEqual_snapshot b).symm, a.tryClone_snapshot.symm⟩
  case decides =>
    intro v w hv hw hvc hwc hcompat
    obtain ⟨c, hc⟩ := Option.isSome_iff_exists.1 hvc
    obtain ⟨d, hd⟩ := Option.isSome_iff_exists.1 hwc
    exact ⟨_, Holder.isEqual_gives hc hd hcompat⟩
  case refl => exact self
  case symm =>
    intro v w hv hw h
    obtain ⟨c, d, hc, hd, hcompat, hequal⟩ := Holder.isEqual_gives_true.1 h
    exact Holder.isEqual_gives_true.2
      ⟨d, c, hd, hc, Ty.compatible_symm hcompat, Content.equals_symm hequal⟩
  case trans =>
    intro v w x hv hw hx h h'
    obtain ⟨c, d, hc, hd, hcompat, hequal⟩ := Holder.isEqual_gives_true.1 h
    obtain ⟨d', e, hd', he, hcompat', hequal'⟩ := Holder.isEqual_gives_true.1 h'
    cases hd'.symm.trans hd
    exact Holder.isEqual_gives_true.2
      ⟨c, e, hc, he, Ty.compatible_trans hcompat hcompat', Content.equals_trans hequal hequal'⟩
  case clone =>
    intro v hv hvc
    obtain ⟨c, hc⟩ := Option.isSome_iff_exists.1 hvc
    have hsame : v.snapshot = v := by
      rcases v with ⟨t, content⟩
      cases hc
      exact congrArg (fun c => Holder.mk t (some c)) c.relabel_id
    have hgives := Holder.tryClone_gives hc
    rw [hsame] at hgives
    exact ⟨v, hgives, hv, self hv hvc⟩
  case copy =>
    intro v hv hvc label walk root w location hroot hwalk hcompat c hc
    obtain ⟨content, hcontent⟩ := Option.isSome_iff_exists.1 hvc
    exact change_copies hs hv hcontent hroot hwalk hcompat hc
  case written =>
    intro v w hv hw h a b ha hb
    obtain ⟨c, d, hc, hd, hcompat, hequal⟩ := Holder.isEqual_gives_true.1 h
    obtain rfl := Option.some.inj (hc.symm.trans ha)
    obtain rfl := Option.some.inj (hd.symm.trans hb)
    exact Content.encode_agrees hK.sound.catalog (hK.sound.has hv).type (hK.sound.has hw).type hcompat
      (typed hv ha) (typed hw hb) ((Content.equals_iff c d).1 hequal).2

/-- The lamp on the desk is equal to the spare fixture, both ways round, and not to the lamp on the shelf, which
it becomes equal to as a copy. -/
theorem equality_laws_lighted : lighted.Reachable ∧
    (deskLamp.holder.snapshot.isEqual spareLamp.holder.snapshot).Gives true ∧
    (spareLamp.holder.snapshot.isEqual deskLamp.holder.snapshot).Gives true ∧
    (deskLamp.holder.snapshot.isEqual shelfLamp.holder.snapshot).Gives false ∧
    Except.Agrees Document.Same (encode lampType (.struct [⟨boolType, .bool false⟩]))
      (encode fixtureType (.struct [⟨boolType, .bool false⟩])) ∧
    ((change "desk" [] (.copyAssign shelfLamp.holder.snapshot)).run lighted).2.outcome = .ok none ∧
    ∃ root, ((change "desk" [] (.copyAssign shelfLamp.holder.snapshot)).run lighted).1.values.get? "desk" =
      some root ∧ (root.isEqual shelfLamp.holder.snapshot).Gives true := by
  have hlaws := equality_laws lighted_reachable
  obtain ⟨hdesk, hshelf, hspare⟩ := lighted_parts
  have hequal : (deskLamp.holder.snapshot.isEqual spareLamp.holder.snapshot).Gives true := fun p => by rfl
  have hdiffers : (deskLamp.holder.snapshot.isEqual shelfLamp.holder.snapshot).Gives false := fun p => by rfl
  have hroot : lighted.values.get? "desk" = some deskLamp.holder := by rfl
  have hwalk : ((deskLamp.holder.reachAll []).run lighted.policy).outcome = .ok ([], deskLamp.holder) := rfl
  have hcopies : (Change.copyAssign shelfLamp.holder.snapshot).Copies shelfLamp.holder.snapshot deskLamp.holder :=
    .assign rfl
  obtain ⟨hok, root, after, hafter, hpart, -, hcopied⟩ := hlaws.copy (.part hshelf) rfl hroot hwalk rfl hcopies
  cases hpart
  exact ⟨lighted_reachable, hequal, hlaws.symm (.part hdesk) (.part hspare) hequal, hdiffers,
    hlaws.written (.part hdesk) (.part hspare) hequal rfl rfl, hok, root, hafter, hcopied⟩

end Session

end TypedValues
