import TypedValues.Proofs.Invariant

/-! Ranges of integers. An alias may narrow the range of its source by attributes of its own. Contents of the
two are exchanged as they are, so the range that always holds is that of the source. -/

namespace TypedValues

variable {α : Type}

def Ty.InRange (t : Ty) (zs : List Int) : Prop :=
  ∃ lo hi, t.intRange? = some (lo, hi) ∧ ∀ z ∈ zs, lo ≤ z ∧ z ≤ hi

/-- The shape declares the type for the child of the content. -/
inductive Shape.Declares : Shape → Content α → Ty → Node α → Prop where
  | optional {u : Ty} {n : Node α} : Declares (.optional (some u)) (.optional (some n)) u n
  | variant {us : List Ty} {i : Nat} {u : Ty} {n : Node α} (active : us[i]? = some u) :
      Declares (.variant us) (.variant i n) u n
  | member {base : Option Ty} {members : List Member} {ns : List (Node α)} {m : Member} {n : Node α}
      (hmem : (n, m) ∈ ns.zip members) : Declares (.struct base members) (.struct ns) m.type n
  | element {u : Ty} {ns : List (Node α)} {n : Node α} (hmem : n ∈ ns) :
      Declares (.array (some u)) (.array ns) u n

/-- The content `d` is at the root of some content of a type, or anywhere below, and the type declared for
its position is `u`. -/
inductive Content.Position (u : Ty) (d : Content α) : Ty → Content α → Prop where
  | root : Position u d u d
  | child {t v : Ty} {c : Content α} {n : Node α} (hn : t.shape.Declares c v n)
      (h : Position u d v n.content) : Position u d t c

theorem Shape.Declares.component {s : Shape} {c : Content α} {u : Ty} {n : Node α} (h : s.Declares c u n) :
    u ∈ s.components := by
  cases h with
  | optional => exact List.mem_cons_self
  | variant active => exact List.mem_of_getElem? active
  | member hmem => exact List.mem_map.2 ⟨_, (List.of_mem_zip hmem).2, rfl⟩
  | element => exact List.mem_cons_self

namespace Content.Typed

variable [HasType α] {K : Set Ty} {next : Nat}

theorem suits {t : Ty} {c : Content α} (hc : c.Typed K t) {u : Ty} {n : Node α}
    (h : t.shape.Declares c u n) : n.Suits K u := by
  generalize hs : t.shape = s at h
  cases h with
  | optional => exact hc.suits_of_some hs
  | variant active => exact hc.suits_of_variant hs active
  | member hmem => exact List.forall₂_zip (hc.suits_of_struct hs) hmem
  | element hmem => exact hc.suits_of_array hs n hmem

/-- What is at a position is typed for the type declared there, whatever type it has itself. -/
theorem position (hK : Catalog K next) {t u : Ty} (ht : t ∈ K) {c d : Content α} (hc : c.Typed K t)
    (h : Position u d t c) : u ∈ K ∧ d.Typed K u := by
  induction h with
  | root => exact ⟨ht, hc⟩
  | child hn _ ih =>
    have hv := hK.component_mem ht hn.component
    have hsuits := hc.suits hn
    exact ih hv (hsuits.content.of_compatible hK hsuits.type_mem hv hsuits.type)

theorem inRange (hK : Catalog K next) {t : Ty} (ht : t ∈ K) {zs : List Int}
    (h : (Content.ints zs : Content α).Typed K t) : t.resolved.InRange zs := by
  cases h.fits with
  | ints shape =>
    obtain ⟨hmem, hcore⟩ := hK.resolved ht
    have hsource := Shape.eq_of_core_eq hcore shape
    obtain ⟨lo, hi, hrange, -⟩ := hK.intRange hmem hsource
    exact ⟨lo, hi, hrange, h.ranged.here lo hi hrange⟩

end Content.Typed

namespace Session

/-- Integers are in the range of the source of the type that is declared for their position. So they are in
the declared type's own range where an alias leaves the range as it is. -/
theorem ints_in_range {s : Session} (hs : s.Reachable) {v : Snapshot} (hv : s.Has v) {c : Content Ty}
    (hc : v.content = some c) {u : Ty} {zs : List Int} (h : Content.Position u (.ints zs) v.type c) :
    u.resolved.InRange zs ∧ (u.intRange? = u.resolved.intRange? → u.InRange zs) := by
  obtain ⟨K, hK⟩ := hs.invariant
  have hcatalog := hK.sound.catalog
  have hvt := hK.sound.has hv
  obtain ⟨hu, htyped⟩ := (hvt.content c hc).position hcatalog hvt.type h
  obtain ⟨lo, hi, hrange, hzs⟩ := htyped.inRange hcatalog hu
  exact ⟨⟨lo, hi, hrange, hzs⟩, fun heq => ⟨lo, hi, heq.trans hrange, hzs⟩⟩

def int32Type : Ty :=
  ((Definition.fresh "int32" (.integral .int32 1)).register Namespace.rootScope .root 6).withIdentity 6

def count : Definition := { int32Type.aliasNamed "count" with attributes := [⟨"min", .literal (.int 1)⟩] }

def countType : Ty := count.withIdentity Namespace.builtins.length

def counted : Session :=
  let known := ((sealType "count" count "count").run initial).1
  let zero := ((change "zero" [] (.construct [])).run (known.create "zero" int32Type)).1
  ((change "count" [] (.copyConstruct ⟨int32Type, some (.ints [0])⟩)).run (zero.create "count" countType)).1

theorem counted_reachable : counted.Reachable := by
  have int32 {s : Session} (h : s.space.type? 6 = some int32Type) : s.Knows int32Type := .registered h
  have hcount : initial.Builds count := by
    have halias : initial.Builds (int32Type.aliasNamed "count") := .aliasOf (int32 rfl) "count"
    exact halias.annotate (a := ⟨"min", .literal (.int 1)⟩) rfl
  have hknown := Reachable.sealType Relation.ReflTransGen.refl hcount "count"
  have hzero := hknown.make (int32 rfl) "zero" (.construct []) (fun o ho => by cases ho)
  have count {s : Session} (h : s.types.get? "count" = some countType) : s.Knows countType := .kept h
  refine hzero.make (count rfl) "count" _ fun o ho => ?_
  obtain rfl := List.mem_singleton.1 ho
  exact .part (a := ⟨⟨int32Type, 0⟩, some (.ints [0])⟩) ⟨"zero", _, [], rfl, rfl⟩

theorem counted_value : counted.values.get? "count" = some ⟨⟨countType, 1⟩, some (.ints [0])⟩ := by rfl

/-- The copied zero is an `int32`. -/
theorem ints_in_range_counted : counted.Reachable ∧ counted.Has ⟨countType, some (.ints [0])⟩ ∧
    countType.resolved.InRange [0] := by
  have hhas : counted.Has ⟨countType, some (.ints [0])⟩ := .part ⟨"count", _, [], counted_value, rfl⟩
  exact ⟨counted_reachable, hhas, (ints_in_range counted_reachable hhas rfl .root).1⟩

/-- The copied zero is not in the range of the alias, and the alias refuses a literal zero. -/
theorem range_of_alias_escaped : counted.Reachable ∧
    counted.values.get? "count" = some ⟨⟨countType, 1⟩, some (.ints [0])⟩ ∧ ¬ countType.InRange [0] ∧
    ∀ c, stageLiteral countType (.int 0) ≠ .ok c := by
  refine ⟨counted_reachable, counted_value, ?_, fun c hc => by cases hc⟩
  rintro ⟨lo, hi, hrange, hzs⟩
  obtain ⟨rfl, -⟩ := Prod.mk.inj (Option.some.inj
    (hrange.symm.trans (rfl : countType.intRange? = some (1, 2147483647))))
  exact absurd (hzs 0 List.mem_cons_self).1 (by decide)

end Session

end TypedValues
