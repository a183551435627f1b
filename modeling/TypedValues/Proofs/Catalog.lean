import TypedValues.Proofs.Fits
import TypedValues.Schema.Building
import Mathlib.Data.Set.Insert

/-! Catalogs of sealed types. Every type that a session ever seals is complete, is made of types
sealed before it, and has an identity of its own. So compatible types have one source, and their
shapes agree up to the place of their members. -/

namespace TypedValues

def Path.Valid (p : Path) : Prop := ∀ name ∈ p.segments, nameFault? name = none

/-- The integers are in the range of the type's source. An alias may narrow the range by attributes of
its own, but it takes over the contents of its source as they are. -/
def Ty.Spans (t : Ty) (zs : List Int) : Prop :=
  ∀ lo hi, t.resolved.intRange? = some (lo, hi) → ∀ z ∈ zs, lo ≤ z ∧ z ≤ hi

/-- All integers in the content are in the ranges of the sources of their types. -/
inductive Content.Ranged {α : Type} [HasType α] : Ty → Content α → Prop where
  | intro {t : Ty} {c : Content α} (here : ∀ zs, c = .ints zs → t.Spans zs)
      (below : ∀ n ∈ c.children, Ranged n.type n.content) : Ranged t c

namespace Content.Ranged

variable {α : Type} [HasType α] {t : Ty} {c : Content α}

theorem here {zs : List Int} (h : (Content.ints zs : Content α).Ranged t) : t.Spans zs := by
  cases h with
  | intro here _ => exact here zs rfl

theorem child (h : c.Ranged t) {n : Node α} (hn : n ∈ c.children) : n.content.Ranged n.type := by
  cases h with
  | intro _ below => exact below n hn

theorem of_resolved_eq {u : Ty} (h : c.Ranged t) (htu : t.resolved = u.resolved) : c.Ranged u := by
  refine .intro ?_ fun n hn => h.child hn
  rintro zs rfl lo hi hrange
  exact h.here lo hi (htu ▸ hrange)

end Content.Ranged

theorem Content.ranged_relabel {α : Type} [HasType α] {t : Ty} {c : Content α} :
    (c.relabel HasType.type).Ranged t ↔ c.Ranged t := by
  induction c using Content.inductOn generalizing t with
  | step c ih =>
    have hints {zs : List Int} : c.relabel HasType.type = .ints zs ↔ c = .ints zs := by
      rcases c with _ | _ | _ | _ | _ | (_ | _) | _ | _ | _ <;> simp [relabel]
    have hbelow : (∀ n ∈ (c.relabel HasType.type).children, n.content.Ranged n.type) ↔
        ∀ n ∈ c.children, n.content.Ranged n.type := by
      rw [children_relabel, List.forall_mem_map]
      refine forall₂_congr fun n hn => ?_
      rw [Node.content_relabel, Node.type_relabel, ih n hn]
    constructor
    · intro h
      refine .intro (fun zs hzs => ?_) (hbelow.1 fun n hn => h.child hn)
      rw [hints.2 hzs] at h
      exact h.here
    · intro h
      refine .intro (fun zs hzs => ?_) (hbelow.2 fun n hn => h.child hn)
      rw [hints.1 hzs] at h
      exact h.here

/-- The types that a member mentions: its own and those inside its default. -/
def Member.parts (m : Member) : List Ty := m.type :: m.default.toList.flatMap Node.labels

def Shape.parts (s : Shape) : List Ty :=
  s.arguments ++ s.base?.toList ++ s.members.flatMap Member.parts

def Definition.parts (d : Definition) : List Ty := d.shape.parts ++ d.aliased.toList

/-- The node may be the declared default of the member. -/
structure Member.Holds (m : Member) (n : Node Ty) : Prop where
  type : n.type.compatible m.type = true
  fits : n.content.Fits n.type
  ranged : n.content.Ranged n.type

theorem Member.holds_attach {m : Member} {owner : Path} {n : Node Ty} :
    (m.attach owner).Holds n ↔ m.Holds n :=
  ⟨fun h => ⟨h.type, h.fits, h.ranged⟩, fun h => ⟨h.type, h.fits, h.ranged⟩⟩

structure EnumDef.Valid (d : EnumDef) : Prop where
  named : ∀ i ∈ d.items, nameFault? i.name = none
  names : (d.items.map (·.name)).Nodup
  default : ∀ i, d.defaultItem = some i → i < d.items.length

structure Shape.Valid (s : Shape) : Prop where
  items : ∀ d, s = .enum d → d.Valid
  alternatives : ∀ us, s = .variant us → us ≠ [] →
    2 ≤ us.length ∧ us.Pairwise fun a b => a.compatible b = false
  named : ∀ m ∈ s.members, nameFault? m.name = none
  names : (s.members.map (·.name)).Nodup
  defaults : ∀ m ∈ s.members, ∀ n, m.default = some n → m.Holds n

def Shape.Inherits (s : Shape) : Prop := ∀ b, s.base? = some b → b.shape.members <+: s.members

/-- The attributes fit the shape, each is set once, and bounds that are both declared are in order. -/
structure Definition.Annotated (d : Definition) : Prop where
  faultless : ∀ a ∈ d.attributes, Definition.attributeFault? d.shape a = none
  keys : (d.attributes.map (·.name)).Nodup
  bounds : ∀ lo hi, d.literal? "min" = some lo → d.literal? "max" = some hi →
    Definition.ordered d.shape lo hi = true

/-- A definition over the types of `K`, complete or not. -/
structure Definition.Valid (K : Set Ty) (d : Definition) : Prop where
  parts : ∀ u ∈ d.parts, u ∈ K
  source : ∀ source, d.aliased = some source → d.shape.core = source.shape.core
  taken : ∀ source, d.aliased = some source → ∀ a ∈ source.attributes, a.name ≠ "native_type" →
    a ∈ d.attributes
  shape : d.shape.Valid
  inherits : d.shape.Inherits
  annotated : d.Annotated

structure Ty.Valid (K : Set Ty) (t : Ty) : Prop extends t.definition.Valid K where
  complete : t.definition.fault? = none
  path : t.path.Valid

/-- The types of `K` are sealed under different identities below `next`, over each other. -/
structure Catalog (K : Set Ty) (next : Nat) : Prop where
  apart : ∀ a ∈ K, ∀ b ∈ K, a.identity = b.identity → a = b
  bounded : ∀ t ∈ K, t.identity < next
  valid : ∀ t ∈ K, t.Valid K

namespace Shape

theorem parts_core (s : Shape) : s.core.parts = s.parts := by
  rw [parts, parts, arguments_core, base?_core, members_core, List.flatMap_map]
  rfl

theorem valid_core {s : Shape} : s.core.Valid ↔ s.Valid := by
  have hitems : (∀ d, s.core = .enum d → d.Valid) ↔ ∀ d, s = .enum d → d.Valid := by
    cases s <;> simp [core]
  have halternatives : (∀ us, s.core = .variant us → us ≠ [] →
      2 ≤ us.length ∧ us.Pairwise fun a b => a.compatible b = false) ↔ ∀ us, s = .variant us →
      us ≠ [] → 2 ≤ us.length ∧ us.Pairwise fun a b => a.compatible b = false := by
    cases s <;> simp [core]
  have hnamed : (∀ m ∈ s.core.members, nameFault? m.name = none) ↔
      ∀ m ∈ s.members, nameFault? m.name = none := by
    rw [members_core, List.forall_mem_map]
    rfl
  have hnames : s.core.members.map (·.name) = s.members.map (·.name) :=
    map_members_core s _ fun _ => rfl
  have hdefaults : (∀ m ∈ s.core.members, ∀ n, m.default = some n → m.Holds n) ↔
      ∀ m ∈ s.members, ∀ n, m.default = some n → m.Holds n := by
    rw [members_core, List.forall_mem_map]
    simp only [Member.holds_attach]
    rfl
  constructor
  · intro h
    exact ⟨hitems.1 h.items, halternatives.1 h.alternatives, hnamed.1 h.named, hnames ▸ h.names,
      hdefaults.1 h.defaults⟩
  · intro h
    exact ⟨hitems.2 h.items, halternatives.2 h.alternatives, hnamed.2 h.named, hnames ▸ h.names,
      hdefaults.2 h.defaults⟩

theorem Valid.of_core_eq {s t : Shape} (h : s.Valid) (hcore : s.core = t.core) : t.Valid :=
  valid_core.1 (hcore ▸ valid_core.2 h)

/-- Inherited members stay where they are when the others get a new owner. -/
theorem Inherits.relink {s : Shape} (h : s.Inherits) (owner : Path) : (s.relink owner).Inherits := by
  cases s with
  | struct base members =>
    rintro b ⟨⟩
    have hcount : (struct (some b) members).inheritedCount = b.shape.members.length := rfl
    have htake : members.take b.shape.members.length = b.shape.members :=
      List.prefix_iff_eq_take.1 (h b rfl) |>.symm
    rw [Shape.relink, hcount, htake]
    exact List.prefix_append _ _
  | _ => intro b hb; cases hb

end Shape

/-- The rules for attributes ask for the kind and the bounds of the shape only. -/
theorem Definition.attributeFault?_core (s : Shape) (a : Attribute) :
    attributeFault? s.core a = attributeFault? s a := by cases s <;> rfl

theorem Definition.attributeFault?_of_core_eq {s t : Shape} (h : s.core = t.core) (a : Attribute) :
    attributeFault? s a = attributeFault? t a := by
  rw [← attributeFault?_core, h, attributeFault?_core]

theorem Definition.ordered_core (s : Shape) (lo hi : Literal) : ordered s.core lo hi = ordered s lo hi := by
  cases s <;> rfl

/-- The same attributes on a shape with the same core. -/
theorem Definition.Annotated.of_core_eq {d e : Definition} (h : d.Annotated)
    (hcore : e.shape.core = d.shape.core) (hattributes : e.attributes = d.attributes) : e.Annotated := by
  have hliteral (key : String) : e.literal? key = d.literal? key := by
    rw [literal?, attribute?, hattributes]; rfl
  refine ⟨fun a ha => ?_, by rw [hattributes]; exact h.keys, fun lo hi hlo hhi => ?_⟩
  · rw [attributeFault?_of_core_eq hcore]
    exact h.faultless a (hattributes ▸ ha)
  · rw [← ordered_core, hcore, ordered_core]
    exact h.bounds lo hi (hliteral "min" ▸ hlo) (hliteral "max" ▸ hhi)

theorem Definition.Valid.mono {K L : Set Ty} {d : Definition} (h : d.Valid K) (hKL : K ⊆ L) :
    d.Valid L :=
  ⟨fun u hu => hKL (h.parts u hu), h.source, h.taken, h.shape, h.inherits, h.annotated⟩

theorem Ty.Valid.mono {K L : Set Ty} {t : Ty} (h : t.Valid K) (hKL : K ⊆ L) : t.Valid L :=
  ⟨h.toValid.mono hKL, h.complete, h.path⟩

namespace Definition

variable {d : Definition}

theorem components_count (h : d.fault? = none) {n : Nat} (hs : d.shape.components? = some n) :
    1 ≤ n ∧ n ≤ 4 := by
  rw [fault?] at h
  split at h
  · cases h
  · rcases d with ⟨_, _, shape, _, _⟩
    cases shape <;> simp only [Shape.components?, Option.some.injEq, reduceCtorEq] at hs
    all_goals
      subst hs
      by_contra hn
      exact Option.some_ne_none _ ((if_neg hn).symm.trans h)

theorem arguments_ne_nil (h : d.fault? = none) (hs : d.shape.isTemplate = true) :
    d.shape.arguments ≠ [] := by
  intro hnil
  rcases d with ⟨_, _, shape, _, _⟩
  rw [fault?] at h
  split at h
  · cases h
  · cases shape <;> simp_all [Shape.isTemplate, Shape.kind, Shape.arguments]

theorem items_ne_nil (h : d.fault? = none) {e : EnumDef} (hs : d.shape = .enum e) : e.items ≠ [] := by
  intro hnil
  rcases d with ⟨_, _, shape, _, _⟩
  subst hs
  rw [fault?] at h
  split at h
  · cases h
  · simp [hnil] at h

theorem name_of_complete (h : d.fault? = none) : nameFault? d.name = none := by
  rw [fault?] at h
  split at h
  next => cases h
  next hname => exact hname

end Definition

theorem Ty.compatible_iff {a b : Ty} :
    a.compatible b = true ↔ a.resolved.identity = b.resolved.identity := by
  simp [Ty.compatible, Ty.same]

theorem Ty.compatible_refl (t : Ty) : t.compatible t = true := compatible_iff.2 rfl

theorem Ty.compatible_symm {a b : Ty} (h : a.compatible b = true) : b.compatible a = true :=
  compatible_iff.2 (compatible_iff.1 h).symm

theorem Ty.compatible_trans {a b c : Ty} (h : a.compatible b = true) (h' : b.compatible c = true) :
    a.compatible c = true := compatible_iff.2 ((compatible_iff.1 h).trans (compatible_iff.1 h'))

namespace Catalog

variable {K : Set Ty} {next : Nat}

theorem part_mem (hK : Catalog K next) {t u : Ty} (ht : t ∈ K) (hu : u ∈ t.shape.parts) : u ∈ K :=
  (hK.valid t ht).parts u (List.mem_append_left _ hu)

theorem argument_mem (hK : Catalog K next) {t u : Ty} (ht : t ∈ K) (hu : u ∈ t.shape.arguments) :
    u ∈ K := hK.part_mem ht (by simp [Shape.parts, hu])

theorem member_mem (hK : Catalog K next) {t : Ty} (ht : t ∈ K) {m : Member}
    (hm : m ∈ t.shape.members) : m.type ∈ K := by
  refine hK.part_mem ht (List.mem_append_right _ ?_)
  exact List.mem_flatMap.2 ⟨m, hm, List.mem_cons_self⟩

theorem default_mem (hK : Catalog K next) {t : Ty} (ht : t ∈ K) {m : Member}
    (hm : m ∈ t.shape.members) {n : Node Ty} (hn : m.default = some n) : ∀ u ∈ n.labels, u ∈ K := by
  intro u hu
  refine hK.part_mem ht (List.mem_append_right _ (List.mem_flatMap.2 ⟨m, hm, ?_⟩))
  simp [Member.parts, hn, hu]

theorem component_mem (hK : Catalog K next) {t u : Ty} (ht : t ∈ K) (hu : u ∈ t.shape.components) :
    u ∈ K := by
  by_cases hs : ∃ b ms, t.shape = .struct b ms
  · obtain ⟨b, ms, hs⟩ := hs
    rw [hs, Shape.components, List.mem_map] at hu
    obtain ⟨m, hm, rfl⟩ := hu
    exact hK.member_mem ht (by rw [hs]; exact hm)
  · refine hK.argument_mem ht ?_
    cases h : t.shape with
    | struct b ms => exact absurd ⟨b, ms, h⟩ hs
    | _ => rw [h] at hu; exact hu

/-- The source at the end of a chain of aliases is in the catalog and has the same core. -/
theorem resolved (hK : Catalog K next) {t : Ty} (ht : t ∈ K) :
    t.resolved ∈ K ∧ t.shape.core = t.resolved.shape.core := by
  rcases t with ⟨_, _, _, _, _, _ | source⟩
  · exact ⟨ht, rfl⟩
  · have hs : source ∈ K := (hK.valid _ ht).parts source (by simp [Definition.parts, Ty.definition])
    obtain ⟨hmem, hcore⟩ := resolved hK hs
    exact ⟨hmem, ((hK.valid _ ht).source source rfl).trans hcore⟩

theorem resolved_eq (hK : Catalog K next) {a b : Ty} (ha : a ∈ K) (hb : b ∈ K)
    (h : a.compatible b = true) : a.resolved = b.resolved :=
  hK.apart _ (hK.resolved ha).1 _ (hK.resolved hb).1 (Ty.compatible_iff.1 h)

theorem core_eq (hK : Catalog K next) {a b : Ty} (ha : a ∈ K) (hb : b ∈ K)
    (h : a.compatible b = true) : a.shape.core = b.shape.core := by
  rw [(hK.resolved ha).2, (hK.resolved hb).2, hK.resolved_eq ha hb h]

/-- What a type may hold, every compatible type may hold. -/
theorem fits {α : Type} [HasType α] (hK : Catalog K next) {a b : Ty} (ha : a ∈ K) (hb : b ∈ K)
    (h : a.compatible b = true) {c : Content α} (hc : c.Fits a) : c.Fits b :=
  hc.of_core_eq (hK.core_eq ha hb h)

/-- Sealing adds a type under the next identity. -/
theorem extend {d : Definition} (hK : Catalog K next) (hd : d.Valid K)
    (hcomplete : d.fault? = none) (hpath : d.path.Valid) :
    Catalog (insert (d.withIdentity next) K) (next + 1) := by
  have hsub : K ⊆ insert (d.withIdentity next) K := Set.subset_insert _ _
  refine ⟨?_, ?_, ?_⟩
  · rintro a (rfl | ha) b (rfl | hb) h
    · rfl
    · exact absurd h (Nat.ne_of_gt (hK.bounded b hb))
    · exact absurd h (Nat.ne_of_lt (hK.bounded a ha))
    · exact hK.apart a ha b hb h
  · rintro t (rfl | ht)
    · exact Nat.lt_succ_self next
    · exact Nat.lt_succ_of_lt (hK.bounded t ht)
  · rintro t (rfl | ht)
    · exact ⟨hd.mono hsub, hcomplete, hpath⟩
    · exact (hK.valid t ht).mono hsub

end Catalog

theorem find?_of_nodup {α : Type} {l : List α} {f : α → String} (h : (l.map f).Nodup) {a : α}
    (ha : a ∈ l) : l.find? (f · == f a) = some a := by
  induction l with
  | nil => cases ha
  | cons b l ih =>
    rw [List.map_cons, List.nodup_cons] at h
    rcases List.mem_cons.1 ha with rfl | ha
    · simp
    · have hne : f b ≠ f a := fun heq => h.1 (heq ▸ List.mem_map_of_mem ha)
      simp [hne, ih h.2 ha]

namespace Definition

variable {d : Definition}

theorem intRange?_of_shape {kind : IntKind} {n : Nat} (hs : d.shape = .integral kind n) :
    d.intRange? = some (((d.literal? "min").bind Literal.asInt?).getD kind.bounds.1,
      ((d.literal? "max").bind Literal.asInt?).getD kind.bounds.2) := by
  rcases d with ⟨_, _, _, _, _⟩; cases hs; rfl

theorem realRange?_of_shape {kind : RealKind} {n : Nat} (hs : d.shape = .real kind n) :
    d.realRange? = some (((d.literal? "min").bind Literal.asReal?).getD kind.largest.neg,
      ((d.literal? "max").bind Literal.asReal?).getD kind.largest) := by
  rcases d with ⟨_, _, _, _, _⟩; cases hs; rfl

theorem attribute_of_literal? {key : String} {l : Literal} (h : d.literal? key = some l) :
    ⟨key, .literal l⟩ ∈ d.attributes := by
  rw [literal?] at h
  split at h
  next name l' ha =>
    obtain rfl := Option.some.inj h
    have hname := List.find?_some ha
    simp only [beq_iff_eq] at hname
    subst hname
    exact List.mem_of_find?_eq_some ha
  next => cases h

namespace Annotated

theorem literal?_of_attribute (h : d.Annotated) {key : String} {l : Literal}
    (ha : ⟨key, .literal l⟩ ∈ d.attributes) : d.literal? key = some l := by
  have hfind : d.attribute? key = some ⟨key, .literal l⟩ := find?_of_nodup h.keys ha
  rw [literal?, hfind]

theorem literal_sound (h : d.Annotated) {key : String} {l : Literal} (hl : d.literal? key = some l) :
    attributeFault? d.shape ⟨key, .literal l⟩ = none := h.faultless _ (attribute_of_literal? hl)

theorem int_bound (h : d.Annotated) {kind : IntKind} {n : Nat} (hs : d.shape = .integral kind n)
    {key : String} (hkey : key = "min" ∨ key = "max") {l : Literal} (hl : d.literal? key = some l) :
    ∃ z, l = .int z ∧ kind.contains z = true := by
  have hfault := h.literal_sound hl
  cases l with
  | int z =>
    refine ⟨z, rfl, ?_⟩
    rcases hkey with rfl | rfl <;> simpa [attributeFault?, boundFault?, hs] using hfault
  | _ => rcases hkey with rfl | rfl <;> simp [attributeFault?, boundFault?, hs] at hfault

/-- The range of an integral type is not empty and lies in its kind. -/
theorem intRange (h : d.Annotated) {kind : IntKind} {n : Nat} (hs : d.shape = .integral kind n) :
    ∃ lo hi, d.intRange? = some (lo, hi) ∧ lo ≤ hi ∧ kind.contains lo = true ∧
      kind.contains hi = true := by
  have hends : kind.contains kind.bounds.1 = true ∧ kind.contains kind.bounds.2 = true := by
    cases kind <;> decide
  have hbounds {z : Int} (hz : kind.contains z = true) : kind.bounds.1 ≤ z ∧ z ≤ kind.bounds.2 := by
    simpa [IntKind.contains] using hz
  refine ⟨_, _, intRange?_of_shape hs, ?_⟩
  cases hmin : d.literal? "min" with
  | none =>
    cases hmax : d.literal? "max" with
    | none => exact ⟨(hbounds hends.1).2, hends⟩
    | some l =>
      obtain ⟨z, rfl, hz⟩ := h.int_bound hs (.inr rfl) hmax
      exact ⟨(hbounds hz).1, hends.1, hz⟩
  | some l =>
    obtain ⟨z, rfl, hz⟩ := h.int_bound hs (.inl rfl) hmin
    cases hmax : d.literal? "max" with
    | none => exact ⟨(hbounds hz).2, hz, hends.2⟩
    | some l =>
      obtain ⟨w, rfl, hw⟩ := h.int_bound hs (.inr rfl) hmax
      have hordered := h.bounds _ _ hmin hmax
      rw [hs] at hordered
      exact ⟨by simpa [ordered, Literal.asInt?] using hordered, hz, hw⟩

end Annotated

end Definition

namespace Catalog

variable {K : Set Ty} {next : Nat}

theorem intRange (hK : Catalog K next) {t : Ty} (ht : t ∈ K) {kind : IntKind} {n : Nat}
    (hs : t.shape = .integral kind n) : ∃ lo hi, t.intRange? = some (lo, hi) ∧ lo ≤ hi ∧
      kind.contains lo = true ∧ kind.contains hi = true := (hK.valid t ht).annotated.intRange hs

theorem literal?_of_source (hK : Catalog K next) {t source : Ty} (ht : t ∈ K)
    (h : t.aliased = some source) {key : String} (hkey : key ≠ "native_type") {l : Literal}
    (hl : source.definition.literal? key = some l) : t.definition.literal? key = some l :=
  (hK.valid t ht).annotated.literal?_of_attribute
    ((hK.valid t ht).taken source h _ (Definition.attribute_of_literal? hl) hkey)

/-- The range of an alias lies in the range of its source. -/
theorem intRange_of_source (hK : Catalog K next) {t source : Ty} (ht : t ∈ K)
    (h : t.aliased = some source) {kind : IntKind} {n : Nat} (hs : t.shape = .integral kind n)
    {lo hi : Int} (hrange : t.intRange? = some (lo, hi)) : source.shape = .integral kind n ∧
      ∃ lo' hi', source.intRange? = some (lo', hi') ∧ lo' ≤ lo ∧ hi ≤ hi' := by
  have hsource : source ∈ K := (hK.valid t ht).parts source (by
    rcases t with ⟨_, _, _, _, _, _⟩; cases h; simp [Definition.parts, Ty.definition])
  have hcore : t.shape.core = source.shape.core := (hK.valid t ht).source source h
  have hshape : source.shape = .integral kind n := Shape.eq_of_core_eq hcore hs
  obtain ⟨_, _, heq, -, hlo, hhi⟩ := hK.intRange ht hs
  obtain ⟨rfl, rfl⟩ := Prod.mk.inj (Option.some.inj (hrange.symm.trans heq))
  obtain ⟨rfl, rfl⟩ := Prod.mk.inj (Option.some.inj
    (hrange.symm.trans (Definition.intRange?_of_shape (d := t.definition) hs)))
  simp only [IntKind.contains, Bool.and_eq_true, decide_eq_true_eq] at hlo hhi
  refine ⟨hshape, _, _, Definition.intRange?_of_shape (d := source.definition) hshape, ?_, ?_⟩
  · cases hl : source.definition.literal? "min" with
    | none => exact hlo.1
    | some l => rw [hK.literal?_of_source ht h (by decide) hl]
  · cases hl : source.definition.literal? "max" with
    | none => exact hhi.2
    | some l => rw [hK.literal?_of_source ht h (by decide) hl]

/-- What is in the range of a type is in the range of its source. -/
theorem spans (hK : Catalog K next) {t : Ty} (ht : t ∈ K) {kind : IntKind} {n : Nat}
    (hs : t.shape = .integral kind n) {lo hi : Int} (hrange : t.intRange? = some (lo, hi))
    {zs : List Int} (hzs : ∀ z ∈ zs, lo ≤ z ∧ z ≤ hi) : t.Spans zs := by
  rcases t with ⟨_, _, _, _, _, _ | source⟩
  · intro lo' hi' h
    obtain ⟨rfl, rfl⟩ := Prod.mk.inj (Option.some.inj (hrange.symm.trans h))
    exact hzs
  · obtain ⟨hshape, lo', hi', hrange', hlo, hhi⟩ := hK.intRange_of_source ht rfl hs hrange
    have hsource : source ∈ K := (hK.valid _ ht).parts source (by simp [Definition.parts, Ty.definition])
    have hin : source.Spans zs := hK.spans hsource hshape hrange' fun z hz =>
      ⟨hlo.trans (hzs z hz).1, (hzs z hz).2.trans hhi⟩
    exact hin

end Catalog

end TypedValues
