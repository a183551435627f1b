import TypedValues.Proofs.RoundTrip

/-! What a document tells of a value. Contents of one type that are written as equal documents are equal,
if none of them wraps an absent optional in a present one and none has an active alternative that shares
its path with another. Types that rule both out have no other contents. -/

namespace TypedValues

mutual

/-- Equality of documents as trees: reals are compared as numbers, fields by their keys. -/
def Document.equals : Document → Document → Bool
  | .null, .null => true
  | .bool a, .bool b => a == b
  | .int a, .int b => a == b
  | .real v, .real w => v.equals w
  | .text a, .text b => a == b
  | .array ds, .array es => Document.equalsAll ds es
  | .object fs, .object gs => fs.length == gs.length && Field.within fs gs
  | _, _ => false

def Document.equalsAll : List Document → List Document → Bool
  | [], [] => true
  | d :: ds, e :: es => d.equals e && Document.equalsAll ds es
  | _, _ => false

def Field.within : List Field → List Field → Bool
  | [], _ => true
  | ⟨key, value⟩ :: rest, gs =>
    (match Field.get? key gs with
    | some d => value.equals d
    | none => false) && Field.within rest gs

end

theorem Document.equalsAll_eq {ds es : List Document} (h : Document.equalsAll ds es = true) :
    List.Forall₂ (fun d e => d.equals e = true) ds es := by
  induction ds generalizing es with
  | nil =>
    cases es with
    | nil => exact .nil
    | cons e es => simp [equalsAll] at h
  | cons d ds ih =>
    cases es with
    | nil => simp [equalsAll] at h
    | cons e es =>
      rw [equalsAll, Bool.and_eq_true] at h
      exact .cons h.1 (ih h.2)

/-- Objects with the same keys in the same order are compared field by field. -/
theorem Field.within_eq {all fs gs : List Field} (hkeys : fs.map (·.key) = gs.map (·.key))
    (hget : ∀ g ∈ gs, Field.get? g.key all = some g.value) (h : Field.within fs all = true) :
    List.Forall₂ (fun f g => f.value.equals g.value = true) fs gs := by
  induction fs generalizing gs with
  | nil =>
    obtain rfl : gs = [] := by simpa using hkeys.symm
    exact .nil
  | cons f fs ih =>
    rcases gs with _ | ⟨g, gs⟩
    · cases hkeys
    rcases f with ⟨key, value⟩
    obtain ⟨hkey, hkeys⟩ := List.cons.inj hkeys
    rw [List.forall_mem_cons] at hget
    rw [within, Bool.and_eq_true] at h
    have hvalue : Field.get? key all = some g.value := (congrArg (Field.get? · all) hkey).trans hget.1
    rw [hvalue] at h
    exact .cons h.1 (ih hkeys hget.2 h.2)

theorem Field.equals_object {fs gs : List Field} (hkeys : fs.map (·.key) = gs.map (·.key))
    (hnodup : (gs.map (·.key)).Nodup) (h : (Document.object fs).equals (.object gs) = true) :
    List.Forall₂ (fun f g => f.value.equals g.value = true) fs gs := by
  rw [Document.equals, Bool.and_eq_true] at h
  exact within_eq hkeys (Content.Field.get?_of_nodup hnodup) h.2

theorem forall₂_join {α β γ δ : Type} {F : α → γ → Prop} {E : γ → δ → Prop} {G : β → δ → Prop}
    {R : α → β → Prop} {as : List α} {bs : List β} {ds : List γ} {es : List δ}
    (hF : List.Forall₂ F as ds) (hE : List.Forall₂ E ds es) (hG : List.Forall₂ G bs es)
    (h : ∀ p ∈ as.zip bs, ∀ d e, F p.1 d → E d e → G p.2 e → R p.1 p.2) : List.Forall₂ R as bs := by
  induction hF generalizing bs es with
  | nil => cases hE; cases hG; exact .nil
  | cons had _ ih =>
    cases hE with
    | cons hde hE =>
      cases hG with
      | cons hbe hG =>
        rw [List.zip_cons_cons, List.forall_mem_cons] at h
        exact .cons (h.1 _ _ had hde hbe) (ih hE hG h.2)

/-- Components that are told apart alone are told apart together. -/
theorem encodeComponents_inj {α : Type} {f g : α → Except Error Document} {R : α → α → Prop}
    {as bs : List α} {d e : Document} (hlength : as.length = bs.length)
    (hd : encodeComponents f as = .ok d) (he : encodeComponents g bs = .ok e) (h : d.equals e = true)
    (hR : ∀ a b d e, f a = .ok d → d.equals e = true → g b = .ok e → R a b) : List.Forall₂ R as bs := by
  have list {as : List α} {f : α → Except Error Document} {d : Document} (hmany : as.length ≠ 1)
      (hd : encodeComponents f as = .ok d) : ∃ ds, d = .array ds ∧ List.Forall₂ (fun a d => f a = .ok d) as ds := by
    rw [encodeComponents] at hd
    · obtain ⟨ds, hds, hd⟩ := Except.bind_eq_ok.1 hd
      cases hd
      exact ⟨ds, rfl, mapM_eq_ok hds⟩
    · rintro a rfl
      exact hmany rfl
  by_cases hone : as.length = 1
  · obtain ⟨a, rfl⟩ := List.length_eq_one_iff.1 hone
    obtain ⟨b, rfl⟩ := List.length_eq_one_iff.1 (hlength ▸ hone)
    exact .cons (hR a b d e hd h he) .nil
  · obtain ⟨ds, rfl, hds⟩ := list hone hd
    obtain ⟨es, rfl, hes⟩ := list (hlength ▸ hone) he
    rw [Document.equals] at h
    exact forall₂_join hds (Document.equalsAll_eq h) hes fun p _ d e => hR p.1 p.2 d e

theorem encodeComponents_ne_null {α : Type} {f : α → Except Error Document} {as : List α} {d : Document}
    (hf : ∀ a d, f a = .ok d → d ≠ .null) (h : encodeComponents f as = .ok d) : d ≠ .null := by
  unfold encodeComponents at h
  split at h
  next a => exact hf a d h
  next =>
    obtain ⟨ds, -, h⟩ := Except.bind_eq_ok.1 h
    cases h
    simp

theorem encodeInt_eq_ok {t : Ty} {z : Int} {d : Document} (h : encodeInt t z = .ok d) : d = .int z := by
  unfold encodeInt at h
  split at h
  · cases h; rfl
  · cases h

theorem encodeReal_eq_ok {t : Ty} {v : Real64} {d : Document} (h : encodeReal t v = .ok d) : d = .real v := by
  unfold encodeReal at h
  split at h
  · cases h; rfl
  · cases h

theorem encode_item {t : Ty} {e : EnumDef} {i : Nat} {d : Document} (ht : t.shape = .enum e)
    (h : encode t (.item i) = .ok d) : ∃ item, e.items[i]? = some item ∧ d = .text item.name := by
  have hitem : ItemRef.item? ⟨t, i⟩ = e.items[i]? := by rw [ItemRef.item?, ht]; rfl
  rw [encode, hitem] at h
  split at h
  next item hi => cases h; exact ⟨item, hi, rfl⟩
  next => cases h

theorem encodeElements_eq_ok {ns : List (Node Ty)} {i : Nat} {ds : List Document}
    (h : encodeElements i ns = .ok ds) :
    List.Forall₂ (fun n d => encode n.type n.content = .ok d) ns ds := by
  induction ns generalizing i ds with
  | nil => cases h; exact .nil
  | cons n ns ih =>
    rw [encodeElements] at h
    simp only [Except.bind_eq_ok, underSite_eq_ok, Except.pure_eq_ok, encodeNode_eq] at h
    obtain ⟨d, hd, rest, hrest, rfl⟩ := h
    exact .cons hd (ih hrest)

theorem encodeMembers_eq_ok {ms : List Member} {ns : List (Node Ty)} {fs : List Field}
    (hlength : ns.length = ms.length) (h : encodeMembers ms ns = .ok fs) :
    fs.map (·.key) = ms.map (·.name) ∧
      List.Forall₂ (fun n f => encode n.type n.content = .ok f.value) ns fs := by
  induction ns generalizing ms fs with
  | nil =>
    obtain rfl := List.length_eq_zero_iff.1 hlength.symm
    cases h
    exact ⟨rfl, .nil⟩
  | cons n ns ih =>
    rcases ms with _ | ⟨m, ms⟩
    · cases hlength
    rw [encodeMembers] at h
    simp only [Except.bind_eq_ok, underSite_eq_ok, Except.pure_eq_ok, encodeNode_eq] at h
    obtain ⟨d, hd, rest, hrest, rfl⟩ := h
    obtain ⟨hkeys, hrest⟩ := ih (Nat.succ.inj hlength) hrest
    exact ⟨by rw [List.map_cons, hkeys, List.map_cons], .cons hd hrest⟩

theorem encode_variant {t alternative : Ty} {i : Nat} {n : Node Ty} {d : Document}
    (hi : t.shape.arguments[i]? = some alternative) (h : encode t (.variant i n) = .ok d) :
    ∃ e, encode n.type n.content = .ok e ∧
      d = .object [⟨variantTypeKey, .text alternative.path.text⟩, ⟨variantValueKey, e⟩] := by
  rw [encode, hi] at h
  obtain ⟨e, he, h⟩ := Except.bind_eq_ok.1 h
  cases h
  exact ⟨e, encodeNode_eq n ▸ he, rfl⟩

/-- No present optional holds an absent one, and no active alternative shares its path. -/
inductive Content.Explicit : Ty → Content Ty → Prop where
  | intro {t : Ty} {c : Content Ty} (present : ∀ n, c = .optional (some n) → n.content ≠ .optional none)
      (active : ∀ i n, c = .variant i n → ∀ j, (t.shape.arguments[j]?).map Ty.path =
        (t.shape.arguments[i]?).map Ty.path → j = i)
      (below : ∀ n ∈ c.children, Explicit n.type n.content) : Explicit t c

namespace Content

theorem Explicit.child {t : Ty} {c : Content Ty} (h : c.Explicit t) {n : Node Ty} (hn : n ∈ c.children) :
    n.content.Explicit n.type := by
  cases h with
  | intro _ _ below => exact below n hn

theorem Explicit.present {t : Ty} {n : Node Ty} (h : (Content.optional (some n)).Explicit t) :
    n.content ≠ .optional none := by
  cases h with
  | intro present _ _ => exact present n rfl

theorem Explicit.active {t : Ty} {i j : Nat} {n : Node Ty} (h : (Content.variant i n).Explicit t)
    (hj : (t.shape.arguments[j]?).map Ty.path = (t.shape.arguments[i]?).map Ty.path) : j = i := by
  cases h with
  | intro _ active _ => exact active i n rfl j hj

/-- Only absence is written as null. -/
theorem Explicit.eq_none_of_null {t : Ty} {c : Content Ty} (h : c.Explicit t)
    (hnull : encode t c = .ok .null) : c = .optional none := by
  induction c using Content.inductOn generalizing t with
  | step c ih =>
    cases c with
    | optional inner =>
      cases inner with
      | none => rfl
      | some n =>
        rw [encode_some] at hnull
        have hn : n ∈ (Content.optional (some n)).children := List.mem_cons_self
        exact absurd (ih n hn (h.child hn) hnull) h.present
    | ints zs =>
      rw [encode] at hnull
      refine absurd rfl (encodeComponents_ne_null (fun z d hd => ?_) hnull)
      rw [encodeInt_eq_ok hd]; simp
    | reals vs =>
      rw [encode] at hnull
      refine absurd rfl (encodeComponents_ne_null (fun v d hd => ?_) hnull)
      rw [encodeReal_eq_ok hd]; simp
    | bool b => rw [encode] at hnull; cases hnull
    | text s => rw [encode] at hnull; cases hnull
    | item i =>
      rw [encode] at hnull
      split at hnull <;> cases hnull
    | variant i n =>
      rw [encode] at hnull
      split at hnull
      · obtain ⟨e, -, hnull⟩ := Except.bind_eq_ok.1 hnull
        cases hnull
      · cases hnull
    | struct ns =>
      rw [encode] at hnull
      obtain ⟨fs, -, hnull⟩ := Except.bind_eq_ok.1 hnull
      cases hnull
    | array ns =>
      rw [encode] at hnull
      obtain ⟨ds, -, hnull⟩ := Except.bind_eq_ok.1 hnull
      cases hnull

end Content

theorem Document.eq_null_of_equals {d : Document} (h : d.equals .null = true ∨ Document.null.equals d = true) :
    d = .null := by
  cases d <;> simp [equals] at h ⊢

theorem Node.normalAll_congr {ns ms : List (Node Ty)}
    (h : List.Forall₂ (fun n m => n.content.normal = m.content.normal) ns ms) :
    Node.normalAll ns = Node.normalAll ms := by
  induction h with
  | nil => rfl
  | cons hnm _ ih => rw [normalAll, normalAll, ih, Node.normal_inj.2 hnm]

namespace Content

/-- Contents of these types that are written as equal documents agree. -/
def Told (t u : Ty) (a b : Content Ty) : Prop :=
  ∀ d e, encode t a = .ok d → d.equals e = true → encode u b = .ok e → a.normal = b.normal

section

variable {t u : Ty}

theorem told_bool (x y : Bool) : Told t u (.bool x) (.bool y) := by
  intro d e hd h he
  rw [encode] at hd he
  cases hd; cases he
  simpa [Document.equals, normal] using h

theorem told_text (x y : String) : Told t u (.text x) (.text y) := by
  intro d e hd h he
  rw [encode] at hd he
  cases hd; cases he
  simpa [Document.equals, normal] using h

theorem told_ints {zs ws : List Int} (hlength : zs.length = ws.length) :
    Told t u (.ints zs) (.ints ws) := by
  intro d e hd h he
  rw [encode] at hd he
  have hall := encodeComponents_inj (R := Eq) hlength hd he h fun z w d e hd h he => by
    rw [encodeInt_eq_ok hd, encodeInt_eq_ok he] at h
    simpa [Document.equals] using h
  rw [List.forall₂_eq_eq_eq] at hall
  rw [hall]

theorem told_reals {vs ws : List Real64} (hlength : vs.length = ws.length) :
    Told t u (.reals vs) (.reals ws) := by
  intro d e hd h he
  rw [encode] at hd he
  have hall := encodeComponents_inj (R := fun v w => v.unsigned = w.unsigned) hlength hd he h
    fun v w d e hd h he => by
      rw [encodeReal_eq_ok hd, encodeReal_eq_ok he, Document.equals, Real64.equals_iff] at h
      exact h.2
  have hmap : vs.map Real64.unsigned = ws.map Real64.unsigned := by
    rwa [← List.forall₂_eq_eq_eq, List.forall₂_map_left_iff, List.forall₂_map_right_iff]
  rw [normal, normal, hmap]

theorem told_item {e : EnumDef} (ht : t.shape = .enum e) (hu : u.shape = .enum e)
    (hnames : (e.items.map (·.name)).Nodup) (i j : Nat) : Told t u (.item i) (.item j) := by
  intro d d' hd h hd'
  obtain ⟨x, hx, rfl⟩ := encode_item ht hd
  obtain ⟨y, hy, rfl⟩ := encode_item hu hd'
  have hname : x.name = y.name := by simpa [Document.equals] using h
  have hfind := findIdx?_of_nodup hnames hx
  rw [hname, findIdx?_of_nodup hnames hy] at hfind
  cases hfind
  rfl

theorem told_optional {x y : Option (Node Ty)} (ha : (Content.optional x).Explicit t)
    (hb : (Content.optional y).Explicit u)
    (h : ∀ n m, x = some n → y = some m → Told n.type m.type n.content m.content) :
    Told t u (.optional x) (.optional y) := by
  intro d e hd heq he
  cases x with
  | none =>
    rw [encode] at hd
    cases hd
    cases hb.eq_none_of_null (Document.eq_null_of_equals (.inr heq) ▸ he)
    rfl
  | some n =>
    cases y with
    | none =>
      rw [encode] at he
      cases he
      cases ha.eq_none_of_null (Document.eq_null_of_equals (.inl heq) ▸ hd)
    | some m =>
      rw [encode_some] at hd he
      rw [normal, normal, Node.normal_inj.2 (h n m rfl rfl d e hd heq he)]

theorem told_variant {i j : Nat} {n m : Node Ty} {x y : Ty} (hx : t.shape.arguments[i]? = some x)
    (hy : u.shape.arguments[j]? = some y) (hxv : x.path.Valid) (hyv : y.path.Valid)
    (hactive : x.path = y.path → i = j) (h : i = j → Told n.type m.type n.content m.content) :
    Told t u (.variant i n) (.variant j m) := by
  intro d e hd heq he
  obtain ⟨d', hd', rfl⟩ := encode_variant hx hd
  obtain ⟨e', he', rfl⟩ := encode_variant hy he
  have hkeys : [variantTypeKey, variantValueKey].Nodup := by decide
  have hsame : [(⟨variantTypeKey, .text x.path.text⟩ : Field), ⟨variantValueKey, d'⟩].map Field.key =
      [(⟨variantTypeKey, .text y.path.text⟩ : Field), ⟨variantValueKey, e'⟩].map Field.key := rfl
  cases Field.equals_object hsame hkeys heq with
  | cons hpath hrest =>
    cases hrest with
    | cons hvalue =>
      have htext : x.path.text = y.path.text := by simpa [Document.equals] using hpath
      obtain rfl := hactive (Path.text_injective hxv hyv htext)
      rw [normal, normal, Node.normal_inj.2 (h rfl d' e' hd' hvalue he')]

theorem told_struct {base : Option Ty} {ms ms' : List Member} (ht : t.shape = .struct base ms)
    (hu : u.shape = .struct base ms') (hnames : ms'.map (·.name) = ms.map (·.name))
    (hnodup : (ms'.map (·.name)).Nodup) {ns ns' : List (Node Ty)} (hlength : ns.length = ms.length)
    (hlength' : ns'.length = ms'.length)
    (h : ∀ p ∈ ns.zip ns', Told p.1.type p.2.type p.1.content p.2.content) :
    Told t u (.struct ns) (.struct ns') := by
  intro d e hd heq he
  rw [encode, ht] at hd
  rw [encode, hu] at he
  obtain ⟨fs, hfs, hd⟩ := Except.bind_eq_ok.1 hd
  obtain ⟨gs, hgs, he⟩ := Except.bind_eq_ok.1 he
  cases hd; cases he
  obtain ⟨hkeys, hfs⟩ := encodeMembers_eq_ok hlength hfs
  obtain ⟨hkeys', hgs⟩ := encodeMembers_eq_ok hlength' hgs
  have hfields := Field.equals_object (hkeys.trans (hnames.symm.trans hkeys'.symm)) (hkeys' ▸ hnodup) heq
  have hall := forall₂_join (R := fun n m => n.content.normal = m.content.normal) hfs hfields hgs
    fun p hp f g hf hfg hg => h p hp _ _ hf hfg hg
  rw [normal, normal, Node.normalAll_congr hall]

theorem told_array {ns ms : List (Node Ty)}
    (h : ∀ p ∈ ns.zip ms, Told p.1.type p.2.type p.1.content p.2.content) :
    Told t u (.array ns) (.array ms) := by
  intro d e hd heq he
  rw [encode] at hd he
  obtain ⟨ds, hds, hd⟩ := Except.bind_eq_ok.1 hd
  obtain ⟨es, hes, he⟩ := Except.bind_eq_ok.1 he
  cases hd; cases he
  rw [Document.equals] at heq
  have hall := forall₂_join (R := fun n m => n.content.normal = m.content.normal)
    (encodeElements_eq_ok hds) (Document.equalsAll_eq heq) (encodeElements_eq_ok hes)
    fun p hp d e hd hde he => h p hp d e hd hde he
  rw [normal, normal, Node.normalAll_congr hall]

/-- Children that may stand in one place are told apart. -/
def ChildrenTold (a b : Content Ty) : Prop :=
  ∀ n ∈ a.children, ∀ m ∈ b.children, ∀ declared, n.type.compatible declared = true →
    m.type.compatible declared = true → Told n.type m.type n.content m.content

variable (hcore : t.shape.core = u.shape.core)

include hcore

theorem Fits.ints_length {zs ws : List Int} (ha : (Content.ints zs : Content Ty).Fits t)
    (hb : (Content.ints ws : Content Ty).Fits u) : zs.length = ws.length := by
  cases ha with
  | ints shape length =>
    cases hb with
    | ints shape' length' =>
      cases (Shape.eq_of_core_eq hcore shape).symm.trans shape'
      exact length.trans length'.symm

theorem Fits.reals_length {vs ws : List Real64} (ha : (Content.reals vs : Content Ty).Fits t)
    (hb : (Content.reals ws : Content Ty).Fits u) : vs.length = ws.length := by
  cases ha with
  | reals shape length =>
    cases hb with
    | reals shape' length' =>
      cases (Shape.eq_of_core_eq hcore shape).symm.trans shape'
      exact length.trans length'.symm

theorem Fits.told_optional {x y : Option (Node Ty)} (ha : (Content.optional x).Fits t)
    (hb : (Content.optional y).Fits u) (hta : (Content.optional x).Explicit t)
    (hub : (Content.optional y).Explicit u) (h : ChildrenTold (.optional x) (.optional y)) :
    Told t u (.optional x) (.optional y) := by
  refine Content.told_optional hta hub fun n m hn hm => ?_
  subst hn hm
  cases ha with
  | some shape type =>
    cases hb with
    | some shape' type' =>
      cases (Shape.eq_of_core_eq hcore shape).symm.trans shape'
      exact h n List.mem_cons_self m List.mem_cons_self _ type type'

theorem Fits.told_variant {i j : Nat} {n m : Node Ty} (hpath : ∀ x ∈ t.shape.arguments, x.path.Valid)
    (ha : (Content.variant i n).Fits t) (hb : (Content.variant j m).Fits u)
    (hta : (Content.variant i n).Explicit t) (h : ChildrenTold (.variant i n) (.variant j m)) :
    Told t u (.variant i n) (.variant j m) := by
  cases ha with
  | variant shape index type =>
    cases hb with
    | variant shape' index' type' =>
      cases (Shape.eq_of_core_eq hcore shape).symm.trans shape'
      have hx := (congrArg (·.arguments[i]?) shape).trans index
      have hy := (congrArg (·.arguments[j]?) shape).trans index'
      refine Content.told_variant hx ((congrArg (·.arguments[j]?) shape').trans index')
        (hpath _ (List.mem_of_getElem? hx)) (hpath _ (List.mem_of_getElem? hy)) (fun hsame => ?_) fun hij => ?_
      · exact (hta.active (by rw [hx, hy, Option.map_some, Option.map_some, hsame])).symm
      · subst hij
        cases index.symm.trans index'
        exact h n List.mem_cons_self m List.mem_cons_self _ type type'

theorem Fits.told_struct {ns ms : List (Node Ty)} (hnodup : (u.shape.members.map (·.name)).Nodup)
    (ha : (Content.struct ns).Fits t) (hb : (Content.struct ms).Fits u)
    (h : ChildrenTold (.struct ns) (.struct ms)) : Told t u (.struct ns) (.struct ms) := by
  cases ha with
  | struct shape types =>
    obtain ⟨members', hs, htypes, hnames⟩ := Shape.exists_struct_of_core_eq hcore shape
    cases hb with
    | struct shape' types' =>
      cases hs.symm.trans shape'
      rw [hs] at hnodup
      have hlength := types.length_eq.trans (List.length_map _)
      have hlength' := types'.length_eq.trans (List.length_map _)
      refine Content.told_struct shape hs hnames hnodup hlength hlength' fun p hp => ?_
      rw [htypes] at types'
      obtain ⟨declared, -, hn, hm⟩ := forall₂_zip types types' p hp
      have hmem := List.of_mem_zip hp
      exact h _ hmem.1 _ hmem.2 declared hn hm

theorem Fits.told_array {ns ms : List (Node Ty)} (ha : (Content.array ns).Fits t) (hb : (Content.array ms).Fits u)
    (h : ChildrenTold (.array ns) (.array ms)) : Told t u (.array ns) (.array ms) := by
  cases ha with
  | array shape types =>
    cases hb with
    | array shape' types' =>
      cases (Shape.eq_of_core_eq hcore shape).symm.trans shape'
      refine Content.told_array fun p hp => ?_
      have hmem := List.of_mem_zip hp
      exact h _ hmem.1 _ hmem.2 _ (types _ hmem.1) (types' _ hmem.2)

end

/-- Explicit contents of compatible types are told apart by what they are written as. -/
theorem Explicit.told {K : Set Ty} {next : Nat} (hK : Catalog K next) {t u : Ty} (ht : t ∈ K)
    (hu : u ∈ K) (hcompat : t.compatible u = true) {a b : Content Ty} (ha : a.Typed K t) (hb : b.Typed K u)
    (hta : a.Explicit t) (hub : b.Explicit u) : Told t u a b := by
  induction a using Content.inductOn generalizing t u b with
  | step a ih =>
    have hcore := hK.core_eq ht hu hcompat
    have hkind : a.kind = b.kind := by
      rw [ha.fits.kind, hb.fits.kind, Ty.kind, Ty.kind, ← Shape.kind_core t.shape, hcore, Shape.kind_core]
    have below : ChildrenTold a b := fun n hn m hm declared hnt hmt =>
      ih n hn (ha.child hn).type_mem (hb.child hm).type_mem (Ty.compatible_trans hnt (Ty.compatible_symm hmt))
        (ha.child hn).content (hb.child hm).content (hta.child hn) (hub.child hm)
    have hpath (x : Ty) (hx : x ∈ t.shape.arguments) : x.path.Valid := (hK.valid x (hK.argument_mem ht hx)).path
    cases a with
    | bool x => cases b with | bool y => exact told_bool x y | _ => cases hkind
    | text x => cases b with | text y => exact told_text x y | _ => cases hkind
    | ints zs =>
      cases b with
      | ints ws => exact told_ints (Fits.ints_length hcore ha.fits hb.fits)
      | _ => cases hkind
    | reals vs =>
      cases b with
      | reals ws => exact told_reals (Fits.reals_length hcore ha.fits hb.fits)
      | _ => cases hkind
    | item i =>
      cases b with
      | item j =>
        cases ha.fits with
        | item shape =>
          have hshape := Shape.eq_of_core_eq hcore shape
          exact told_item shape hshape ((hK.valid t ht).shape.items _ shape).names i j
      | _ => cases hkind
    | optional x =>
      cases b with
      | optional y => exact Fits.told_optional hcore ha.fits hb.fits hta hub below
      | _ => cases hkind
    | variant i n =>
      cases b with
      | variant j m => exact Fits.told_variant hcore hpath ha.fits hb.fits hta below
      | _ => cases hkind
    | struct ns =>
      cases b with
      | struct ms => exact Fits.told_struct hcore (hK.valid u hu).shape.names ha.fits hb.fits below
      | _ => cases hkind
    | array ns =>
      cases b with
      | array ms => exact Fits.told_array hcore ha.fits hb.fits below
      | _ => cases hkind

end Content

theorem Shape.components_core (s : Shape) : s.core.components = s.components := by
  cases s with
  | struct base members => exact map_members_core (.struct base members) _ fun _ => rfl
  | _ => rfl

theorem Content.Fits.declared {t : Ty} {c : Content Ty} (h : c.Fits t) {n : Node Ty} (hn : n ∈ c.children) :
    ∃ u ∈ t.shape.components, n.type.compatible u = true := by
  cases h with
  | some shape type =>
    obtain rfl := List.mem_singleton.1 hn
    exact ⟨_, by rw [shape]; exact List.mem_cons_self, type⟩
  | variant shape index type =>
    obtain rfl := List.mem_singleton.1 hn
    exact ⟨_, by rw [shape]; exact List.mem_of_getElem? index, type⟩
  | struct shape types =>
    have hflip := List.Forall₂.flip (R := fun u (n : Node Ty) => n.type.compatible u = true) types
    obtain ⟨u, hu, type⟩ := forall₂_exists_left hflip hn
    exact ⟨u, by rw [shape]; exact hu, type⟩
  | array shape types => exact ⟨_, by rw [shape]; exact List.mem_cons_self, types n hn⟩
  | _ => cases hn

namespace Ty.Plain

theorem of_core_eq {t u : Ty} (h : t.Plain) (hcore : t.shape.core = u.shape.core) : u.Plain := by
  refine .intro (fun x hx => h.argument (Shape.eq_of_core_eq hcore.symm hx))
    (fun us hus => h.paths (Shape.eq_of_core_eq hcore.symm hus)) fun x hx => h.component ?_
  rwa [← Shape.components_core, hcore, Shape.components_core]

/-- A plain type holds explicit contents only. -/
theorem explicit {K : Set Ty} {next : Nat} (hK : Catalog K next) {t : Ty} (ht : t ∈ K) (hplain : t.Plain)
    {c : Content Ty} (hc : c.Typed K t) : c.Explicit t := by
  induction c using Content.inductOn generalizing t with
  | step c ih =>
    refine .intro ?_ ?_ fun n hn => ?_
    · rintro n rfl hnone
      cases hc.fits with
      | some shape type below =>
        have hn := (hc.suits_of_some shape).type_mem
        have hmem := hK.argument_mem ht (by rw [shape]; exact List.mem_cons_self)
        have hkind : n.type.kind = .optional := by rw [← below.kind, hnone]; rfl
        refine hplain.argument shape ?_
        rw [hK.kind_resolved hmem, Ty.kind, ← Shape.kind_core, ← hK.core_eq hn hmem type, Shape.kind_core]
        exact hkind
    · rintro i n rfl j hj
      cases hc.fits with
      | variant shape index =>
        have hpaths := hplain.paths shape
        rw [shape, Shape.arguments, ← List.getElem?_map, ← List.getElem?_map] at hj
        have hlt := (List.getElem?_eq_some_iff.1 index).1
        rw [← List.length_map (f := Ty.path)] at hlt
        exact ((List.getElem?_inj hlt hpaths).1 hj.symm).symm
    · obtain ⟨u, hu, htype⟩ := hc.fits.declared hn
      have hmem := hK.component_mem ht hu
      have hn' := (hc.child hn).type_mem
      exact ih n hn hn' ((hplain.component hu).of_core_eq (hK.core_eq hmem hn' (Ty.compatible_symm htype)))
        (hc.child hn).content

end Ty.Plain

namespace Session

/-- Values that are written as equal documents are equal, if their contents are explicit, as all contents
of plain types are. -/
theorem equal_of_documents {s : Session} (hs : s.Reachable) {v w : Snapshot} (hv : s.Has v) (hw : s.Has w)
    (hcompat : v.type.compatible w.type = true) {a b : Content Ty} (ha : v.content = some a)
    (hb : w.content = some b) :
    (v.type.Plain → a.Explicit v.type ∧ b.Explicit w.type) ∧
      (a.Explicit v.type → b.Explicit w.type → ∀ d e, encode v.type a = .ok d → encode w.type b = .ok e →
        d.equals e = true → (v.isEqual w).Gives true) := by
  obtain ⟨K, hK⟩ := hs.invariant
  have hcatalog := hK.sound.catalog
  have hvt := hK.sound.has hv
  have hwt := hK.sound.has hw
  refine ⟨fun hplain => ⟨hplain.explicit hcatalog hvt.type (hvt.content a ha), ?_⟩, ?_⟩
  · exact (hplain.of_core_eq (hcatalog.core_eq hvt.type hwt.type hcompat)).explicit hcatalog hwt.type
      (hwt.content b hb)
  · intro hva hwb d e hd he heq
    have hnormal := hva.told hcatalog hvt.type hwt.type hcompat (hvt.content a ha) (hwt.content b hb) hwb
      d e hd heq he
    have hequal : a.equals b = true := Content.equals_iff a b |>.2 ⟨(hvt.content a ha).fits.nanFree, hnormal⟩
    rw [← hequal]
    exact Holder.isEqual_gives ha hb hcompat

/-- A lamp and a fixture have one document, so they are equal. -/
theorem equal_of_documents_lighted : lighted.Reachable ∧ lampType.Plain ∧ lampType ≠ fixtureType ∧
    encode lampType (.struct [⟨boolType, .bool false⟩]) = .ok (.object [⟨"on", .bool false⟩]) ∧
    encode fixtureType (.struct [⟨boolType, .bool false⟩]) = .ok (.object [⟨"on", .bool false⟩]) ∧
    (deskLamp.holder.snapshot.isEqual spareLamp.holder.snapshot).Gives true := by
  have hbool : boolType.Plain :=
    .intro (fun u h => by cases h) (fun us h => by cases h) fun u hu => by cases hu
  have hlamp : lampType.Plain := by
    refine .intro (fun u h => by cases h) (fun us h => by cases h) fun u hu => ?_
    obtain rfl := List.mem_singleton.1 hu
    exact hbool
  have hdistinct : lampType ≠ fixtureType := fun h => absurd (congrArg Ty.identity h) (by decide)
  have hdocument : encode lampType (.struct [⟨boolType, .bool false⟩]) =
      .ok (.object [⟨"on", .bool false⟩]) := by rfl
  have hdocument' : encode fixtureType (.struct [⟨boolType, .bool false⟩]) =
      .ok (.object [⟨"on", .bool false⟩]) := by rfl
  obtain ⟨hdesk, -, hspare⟩ := lighted_parts
  obtain ⟨hexplicit, hequal⟩ :=
    equal_of_documents lighted_reachable (.part hdesk) (.part hspare) (by rfl) rfl rfl
  obtain ⟨ha, hb⟩ := hexplicit hlamp
  exact ⟨lighted_reachable, hlamp, hdistinct, hdocument, hdocument', hequal ha hb _ _ hdocument hdocument' rfl⟩

theorem builds_template {s : Session} (name : String) (shape : Shape) (hblank : shape.Blank) (ts : List Ty)
    (hts : ∀ t ∈ ts, s.Knows t) {d : Definition}
    (h : (((Definition.fresh name shape).instantiate (ts.map Argument.type)).run s.policy).outcome = .ok d) :
    s.Builds d := by
  have hfresh : s.Builds (.fresh name shape) := .fresh name hblank
  refine hfresh.instantiate (fun t ht => ?_) h
  exact hts t (by simpa using ht)

theorem initial_knows_bool : initial.Knows boolType := by
  have hzero : initial.space.type? 0 = some boolType := rfl
  exact .registered hzero

def maybe : Definition := { Definition.fresh "maybe" (.optional none) with shape := .optional (some boolType) }

def maybeType : Ty := maybe.withIdentity Namespace.builtins.length

def nested : Definition :=
  { Definition.fresh "nested" (.optional none) with shape := .optional (some maybeType) }

def nestedType : Ty := nested.withIdentity (Namespace.builtins.length + 1)

def optionals : Session :=
  ((sealType "nested" nested "nested").run ((sealType "maybe" maybe "maybe").run initial).1).1

/-- Optionals of optionals: one is absent, and one holds an absent one. -/
def wrapped : Session :=
  let absent := ((change "absent" [] (.construct [])).run (optionals.create "absent" nestedType)).1
  let inner := ((change "inner" [] (.construct [])).run (absent.create "inner" maybeType)).1
  ((change "present" [] (.construct [⟨none, .operand (.value ⟨maybeType, some (.optional none)⟩)⟩])).run
    (inner.create "present" nestedType)).1

theorem optionals_reachable : optionals.Reachable := by
  have hmaybe : initial.Builds maybe :=
    builds_template "maybe" (.optional none) rfl [boolType] (by simpa using initial_knows_bool) rfl
  have hfirst := Reachable.sealType Relation.ReflTransGen.refl hmaybe "maybe"
  have hkept : ((sealType "maybe" maybe "maybe").run initial).1.types.get? "maybe" = some maybeType := by rfl
  have hnested : ((sealType "maybe" maybe "maybe").run initial).1.Builds nested :=
    builds_template "nested" (.optional none) rfl [maybeType] (by simpa using .kept hkept) rfl
  exact hfirst.sealType hnested "nested"

theorem wrapped_reachable : wrapped.Reachable := by
  have nested {s : Session} (h : s.types.get? "nested" = some nestedType) : s.Knows nestedType := .kept h
  have habsent := optionals_reachable.make (nested rfl) "absent" (.construct []) (fun o ho => by cases ho)
  have hmaybe : ((change "absent" [] (.construct [])).run (optionals.create "absent" nestedType)).1.Knows
    maybeType := .part (nested rfl) (List.mem_of_getElem? (i := 0) rfl)
  have hinner := habsent.make hmaybe "inner" (.construct []) (fun o ho => by cases ho)
  refine hinner.make (nested rfl) "present" _ fun o ho => ?_
  obtain rfl := List.mem_singleton.1 ho
  exact .part (a := ⟨⟨maybeType, 1⟩, some (.optional none)⟩) ⟨"inner", _, [], rfl, rfl⟩

def flag : Definition := boolType.cloneNamed "flag"

def twins : List Ty :=
  [flag.withIdentity Namespace.builtins.length, flag.withIdentity (Namespace.builtins.length + 1)]

def either : Definition := { Definition.fresh "either" (.variant []) with shape := .variant twins }

def eitherType : Ty := either.withIdentity (Namespace.builtins.length + 2)

def variants : Session :=
  ((sealType "either" either "either").run
    ((sealType "second" flag "second").run ((sealType "first" flag "first").run initial).1).1).1

/-- Values of a variant whose alternatives share their path: in each of the two another one is active. -/
def paired : Session :=
  let left := ((change "left" [] (.construct [])).run (variants.create "left" eitherType)).1
  let right := ((change "right" [] (.construct [])).run (left.create "right" eitherType)).1
  ((change "right" [] (.setActiveAlternative 1)).run right).1

theorem variants_reachable : variants.Reachable := by
  have hflag : initial.Builds flag := .cloneOf initial_knows_bool "flag"
  have hfirst := Reachable.sealType Relation.ReflTransGen.refl hflag "first"
  have hbool : ((sealType "first" flag "first").run initial).1.Knows boolType := by
    have hzero : ((sealType "first" flag "first").run initial).1.space.type? 0 = some boolType := rfl
    exact .registered hzero
  have hsecond := hfirst.sealType (.cloneOf hbool "flag") "second"
  refine hsecond.sealType (builds_template "either" (.variant []) rfl twins (fun t ht => ?_) rfl) "either"
  rcases List.mem_cons.1 ht with rfl | ht
  · exact .kept (rfl : ((sealType "second" flag "second").run
      ((sealType "first" flag "first").run initial).1).1.types.get? "first" = _)
  · rw [List.mem_singleton.1 ht]
    exact .kept (rfl : ((sealType "second" flag "second").run
      ((sealType "first" flag "first").run initial).1).1.types.get? "second" = _)

theorem paired_reachable : paired.Reachable := by
  have either {s : Session} (h : s.types.get? "either" = some eitherType) : s.Knows eitherType := .kept h
  have hleft := variants_reachable.make (either rfl) "left" (.construct []) (fun o ho => by cases ho)
  have hright := hleft.make (either rfl) "right" (.construct []) (fun o ho => by cases ho)
  exact hright.step (.change (fun o ho => by cases ho) "right" [])

/-- Values of one type that are written as equal documents and are not equal: for a type that nests
optionals, and for a variant of two types of one path. -/
theorem documents_lose :
    (∃ a b, wrapped.Reachable ∧ wrapped.Has ⟨nestedType, some a⟩ ∧ wrapped.Has ⟨nestedType, some b⟩ ∧
      encode nestedType a = .ok .null ∧ encode nestedType b = .ok .null ∧
      (Holder.isEqual (⟨nestedType, some a⟩ : Snapshot) (⟨nestedType, some b⟩ : Snapshot)).Gives false) ∧
    ∃ a b d, paired.Reachable ∧ paired.Has ⟨eitherType, some a⟩ ∧ paired.Has ⟨eitherType, some b⟩ ∧
      encode eitherType a = .ok d ∧ encode eitherType b = .ok d ∧
      (Holder.isEqual (⟨eitherType, some a⟩ : Snapshot) (⟨eitherType, some b⟩ : Snapshot)).Gives false := by
  have differ {t : Ty} {a b : Content Ty} (h : a.equals b = false) :
      (Holder.isEqual (⟨t, some a⟩ : Snapshot) (⟨t, some b⟩ : Snapshot)).Gives false := by
    rw [← h]
    exact Holder.isEqual_gives rfl rfl (Ty.compatible_refl t)
  constructor
  · have habsent : wrapped.values.get? "absent" = some ⟨⟨nestedType, 0⟩, some (.optional none)⟩ := by rfl
    have hpresent : wrapped.values.get? "present" =
        some ⟨⟨nestedType, 2⟩, some (.optional (some ⟨⟨maybeType, 3⟩, .optional none⟩))⟩ := by rfl
    exact ⟨.optional none, .optional (some ⟨maybeType, .optional none⟩), wrapped_reachable,
      .part ⟨"absent", _, [], habsent, rfl⟩, .part ⟨"present", _, [], hpresent, rfl⟩, rfl, rfl, differ rfl⟩
  · have hleft : paired.values.get? "left" = some ⟨⟨eitherType, 0⟩,
        some (.variant 0 ⟨⟨flag.withIdentity Namespace.builtins.length, 1⟩, .bool false⟩)⟩ := by rfl
    have hright : paired.values.get? "right" = some ⟨⟨eitherType, 2⟩,
        some (.variant 1 ⟨⟨flag.withIdentity (Namespace.builtins.length + 1), 4⟩, .bool false⟩)⟩ := by rfl
    refine ⟨_, _, _, paired_reachable, .part ⟨"left", _, [], hleft, rfl⟩, .part ⟨"right", _, [], hright, rfl⟩,
      rfl, rfl, differ rfl⟩

end Session

end TypedValues
