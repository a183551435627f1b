import TypedValues.Proofs.Attempt
import TypedValues.Proofs.Catalog
import TypedValues.Staging.Literal
import TypedValues.UiText

/-! Content over a catalog, and where it comes from first: defaults, literals and texts give content
that fits its type, is in range and mentions no type outside the catalog. -/

namespace TypedValues

variable {α : Type} [HasType α] {K : Set Ty} {next : Nat}

/-- The content fits the type and is in range, and every type in it is in the catalog. -/
structure Content.Typed (K : Set Ty) (t : Ty) (c : Content α) : Prop where
  fits : c.Fits t
  labels : ∀ l ∈ c.labels, HasType.type l ∈ K
  ranged : c.Ranged t

structure Node.Typed (K : Set Ty) (n : Node α) : Prop where
  fits : n.content.Fits n.type
  labels : ∀ l ∈ n.labels, HasType.type l ∈ K
  ranged : n.content.Ranged n.type

/-- The node may stand where `declared` is the type. -/
structure Node.Suits (K : Set Ty) (declared : Ty) (n : Node α) : Prop extends n.Typed K where
  type : n.type.compatible declared = true

namespace Node

theorem Typed.type_mem {n : Node α} (h : n.Typed K) : n.type ∈ K :=
  h.labels n.label n.label_mem_labels

theorem Typed.content {n : Node α} (h : n.Typed K) : n.content.Typed K n.type :=
  ⟨h.fits, fun l hl => h.labels l (by rw [labels_eq]; exact List.mem_cons_of_mem _ hl), h.ranged⟩

theorem typed_mk {n : Node α} (ht : n.type ∈ K) (hc : n.content.Typed K n.type) : n.Typed K := by
  refine ⟨hc.fits, fun l hl => ?_, hc.ranged⟩
  rw [labels_eq] at hl
  rcases List.mem_cons.1 hl with rfl | hl
  · exact ht
  · exact hc.labels l hl

theorem suits_mk {t : Ty} (ht : t ∈ K) {c : Content Ty} (hc : c.Typed K t) :
    (⟨t, c⟩ : Node Ty).Suits K t := ⟨typed_mk ht hc, Ty.compatible_refl t⟩

end Node

namespace Content

theorem Typed.child {t : Ty} {c : Content α} (h : c.Typed K t) {n : Node α} (hn : n ∈ c.children) :
    n.Typed K :=
  ⟨h.fits.child hn, fun l hl => h.labels l (mem_labels hn hl), h.ranged.child hn⟩

theorem Typed.of_children {t : Ty} {c : Content α} (hfits : c.Fits t)
    (hints : ∀ zs, c = .ints zs → t.Spans zs) (hn : ∀ n ∈ c.children, n.Typed K) : c.Typed K t := by
  refine ⟨hfits, fun l hl => ?_, .intro hints fun n hmem => (hn n hmem).ranged⟩
  rw [labels_eq, List.mem_flatMap] at hl
  obtain ⟨n, hmem, hl⟩ := hl
  exact (hn n hmem).labels l hl

theorem Typed.leaf {t : Ty} {c : Content α} (hfits : c.Fits t) (hn : c.children = [])
    (hints : ∀ zs, c ≠ .ints zs := by nofun) : c.Typed K t :=
  .of_children hfits (fun zs hzs => absurd hzs (hints zs)) (by simp [hn])

theorem Typed.ints {t : Ty} {zs : List Int} (hfits : (Content.ints zs : Content α).Fits t)
    (hzs : t.Spans zs) : (Content.ints zs : Content α).Typed K t := by
  refine .of_children hfits ?_ (by simp [children])
  rintro _ ⟨⟩
  exact hzs

theorem Typed.optional {t argument : Ty} (hs : t.shape = .optional (some argument)) {n : Node α}
    (h : n.Suits K argument) : (Content.optional (some n)).Typed K t :=
  .of_children (.some hs h.type h.fits) nofun (by simpa [children] using h.toTyped)

theorem Typed.variant {t alternative : Ty} {alternatives : List Ty} {i : Nat}
    (hs : t.shape = .variant alternatives) (hi : alternatives[i]? = some alternative) {n : Node α}
    (h : n.Suits K alternative) : (Content.variant i n).Typed K t :=
  .of_children (.variant hs hi h.type h.fits) nofun (by simpa [children] using h.toTyped)

theorem Typed.struct {t : Ty} {base : Option Ty} {members : List Member}
    (hs : t.shape = .struct base members) {ns : List (Node α)}
    (h : List.Forall₂ (fun n m => n.Suits K m.type) ns members) :
    (Content.struct ns).Typed K t := by
  have htyped : ∀ n ∈ ns, n.Typed K := by
    clear hs
    induction h with
    | nil => simp
    | cons h _ ih => exact List.forall_mem_cons.2 ⟨h.toTyped, ih⟩
  refine .of_children (.struct hs ?_ fun n hn => (htyped n hn).fits) nofun htyped
  rw [List.forall₂_map_right_iff]
  exact h.imp fun _ _ h => h.type

theorem Typed.array {t element : Ty} (hs : t.shape = .array (some element)) {ns : List (Node α)}
    (h : ∀ n ∈ ns, n.Suits K element) : (Content.array ns).Typed K t :=
  .of_children (.array hs (fun n hn => (h n hn).type) fun n hn => (h n hn).fits) nofun
    fun n hn => (h n hn).toTyped

theorem Typed.suits_of_some {t argument : Ty} {n : Node α}
    (h : (Content.optional (some n)).Typed K t) (hs : t.shape = .optional (some argument)) :
    n.Suits K argument := by
  have hn : n.Typed K := h.child List.mem_cons_self
  cases h.fits with
  | some shape type =>
    rw [hs, Shape.optional.injEq, Option.some.injEq] at shape
    exact ⟨hn, shape ▸ type⟩

theorem Typed.suits_of_variant {t alternative : Ty} {alternatives : List Ty} {i : Nat} {n : Node α}
    (h : (Content.variant i n).Typed K t) (hs : t.shape = .variant alternatives)
    (hi : alternatives[i]? = some alternative) : n.Suits K alternative := by
  have hn : n.Typed K := h.child List.mem_cons_self
  cases h.fits with
  | variant shape index type =>
    rw [hs, Shape.variant.injEq] at shape
    rw [← shape, hi, Option.some.injEq] at index
    exact ⟨hn, index ▸ type⟩

theorem Typed.suits_of_struct {t : Ty} {base : Option Ty} {members : List Member} {ns : List (Node α)}
    (h : (Content.struct ns).Typed K t) (hs : t.shape = .struct base members) :
    List.Forall₂ (fun n m => n.Suits K m.type) ns members := by
  have hns : ∀ n ∈ ns, n.Typed K := fun n hn => h.child hn
  cases h.fits with
  | struct shape types below =>
    rw [hs, Shape.struct.injEq] at shape
    rw [← shape.2, List.forall₂_map_right_iff] at types
    clear h hs shape below
    induction types with
    | nil => exact .nil
    | cons htype _ ih =>
      rw [List.forall_mem_cons] at hns
      exact .cons ⟨hns.1, htype⟩ (ih hns.2)

theorem Typed.suits_of_array {t element : Ty} {ns : List (Node α)}
    (h : (Content.array ns).Typed K t) (hs : t.shape = .array (some element)) :
    ∀ n ∈ ns, n.Suits K element := by
  intro n hn
  have hn' : n.Typed K := h.child hn
  cases h.fits with
  | array shape types =>
    rw [hs, Shape.array.injEq, Option.some.injEq] at shape
    exact ⟨hn', shape ▸ types n hn⟩

/-- Labels of the same types make no difference. -/
theorem typed_relabel {t : Ty} {c : Content α} :
    (c.relabel HasType.type).Typed K t ↔ c.Typed K t := by
  have hlabels : (∀ l ∈ (c.relabel HasType.type).labels, HasType.type l ∈ K) ↔
      ∀ l ∈ c.labels, HasType.type l ∈ K := by
    rw [labels_relabel, List.forall_mem_map]
    rfl
  exact ⟨fun h => ⟨fits_relabel.1 h.fits, hlabels.1 h.labels, ranged_relabel.1 h.ranged⟩,
    fun h => ⟨fits_relabel.2 h.fits, hlabels.2 h.labels, ranged_relabel.2 h.ranged⟩⟩

/-- Typed content of one type is typed content of every compatible type. -/
theorem Typed.of_compatible (hK : Catalog K next) {t u : Ty} (ht : t ∈ K) (hu : u ∈ K)
    (h : t.compatible u = true) {c : Content α} (hc : c.Typed K t) : c.Typed K u :=
  ⟨hK.fits ht hu h hc.fits, hc.labels, hc.ranged.of_resolved_eq (hK.resolved_eq ht hu h)⟩

end Content

theorem Node.suits_relabel {declared : Ty} {n : Node α} :
    (n.relabel HasType.type).Suits K declared ↔ n.Suits K declared := by
  have hcontent : (n.relabel HasType.type).Typed K ↔ n.Typed K := by
    have h := Content.typed_relabel (K := K) (t := n.type) (c := n.content)
    constructor
    · intro hn
      have hc := hn.content
      rw [content_relabel, type_relabel] at hc
      exact typed_mk (type_relabel n ▸ hn.type_mem) (h.1 hc)
    · intro hn
      refine typed_mk (by rw [type_relabel]; exact hn.type_mem) ?_
      rw [content_relabel, type_relabel]
      exact h.2 hn.content
  have htype : (n.relabel HasType.type).type.compatible declared = n.type.compatible declared := by
    rw [type_relabel]
  exact ⟨fun h => ⟨hcontent.1 h.toTyped, htype ▸ h.type⟩,
    fun h => ⟨hcontent.2 h.toTyped, htype ▸ h.type⟩⟩

theorem roundDiv_mul (q d : Nat) (hd : 0 < d) : roundDiv (q * d) d = q := by
  simp [roundDiv, hd]

/-- A number of the format is rounded to itself. -/
theorem Binary.Format.round_of_holds {f : Format} {u : Nat} (h : f.Holds u) :
    f.round u 1 = some u := by
  obtain ⟨hle, hmod⟩ := h
  have hstep : u / twoTo (f.step u) * twoTo (f.step u) = u :=
    Nat.div_mul_cancel (Nat.dvd_of_mod_eq_zero hmod)
  have hround : roundDiv u (twoTo (f.step u)) = u / twoTo (f.step u) := by
    have h := roundDiv_mul (u / twoTo (f.step u)) (twoTo (f.step u)) (twoTo_pos _)
    rwa [hstep] at h
  simp only [round, Nat.div_one, Nat.one_mul, hround, hstep, hle, if_true]

theorem Binary.Format.holds_zero (f : Format) : f.Holds 0 := ⟨Nat.zero_le _, Nat.zero_mod _⟩

namespace Real64

theorem ofUnits_ne_nan (s : Bool) (u : Nat) : ofUnits s u ≠ .nan := by
  unfold ofUnits; split <;> simp

theorem toFormat_ne_nan {f : Binary.Format} {v : Real64} (h : v ≠ .nan) : v.toFormat f ≠ .nan := by
  cases v with
  | nan => exact absurd rfl h
  | infinite s => simp [toFormat]
  | finite s u hu =>
    simp only [toFormat]
    split
    · exact ofUnits_ne_nan _ _
    · simp

theorem toFormat_ofUnits {f : Binary.Format} {u : Nat} (h : f.Holds u) (s : Bool) :
    (ofUnits s u).toFormat f = ofUnits s u := by
  by_cases hu : Binary.double.Holds u
  · simp only [ofUnits, hu, dite_true, toFormat, Binary.Format.round_of_holds h]
  · simp only [ofUnits, hu, dite_false, toFormat]

/-- Rounding a second time changes nothing. -/
theorem toFormat_toFormat {f : Binary.Format} (hp : 0 < f.precision) (v : Real64) :
    (v.toFormat f).toFormat f = v.toFormat f := by
  cases v with
  | nan => rfl
  | infinite s => rfl
  | finite s u hu =>
    simp only [toFormat]
    cases hr : f.round u 1 with
    | none => rfl
    | some w => exact toFormat_ofUnits (Binary.Format.holds_of_round hp Nat.one_pos hr) s

theorem toFormat_zero (f : Binary.Format) : zero.toFormat f = zero :=
  toFormat_ofUnits (Binary.Format.holds_zero f) false

theorem ofRatio_ne_nan (s : Bool) (n d : Nat) : ofRatio s n d ≠ .nan := by
  unfold ofRatio
  split
  · exact ofUnits_ne_nan _ _
  · simp

end Real64

namespace RealKind

theorem quantize_ne_nan (k : RealKind) {v : Real64} (h : v ≠ .nan) : k.quantize v ≠ .nan := by
  cases k with
  | single => exact Real64.toFormat_ne_nan h
  | double => exact h

theorem quantize_quantize (k : RealKind) (v : Real64) : k.quantize (k.quantize v) = k.quantize v := by
  cases k with
  | single => exact Real64.toFormat_toFormat (by decide) v
  | double => rfl

theorem quantize_zero (k : RealKind) : k.quantize .zero = .zero := by
  cases k with
  | single => rw [quantize, Real64.toFormat_zero]
  | double => rfl

end RealKind

namespace Catalog

theorem realRange_lower (hK : Catalog K next) {t : Ty} (ht : t ∈ K) {kind : RealKind} {n : Nat}
    (hs : t.shape = .real kind n) : ∃ lo hi, t.realRange? = some (lo, hi) ∧ lo ≠ .nan := by
  refine ⟨_, _, Definition.realRange?_of_shape hs, ?_⟩
  cases h : (t.definition.literal? "min").bind Literal.asReal? with
  | none =>
    have hlargest : kind.largest ≠ .nan := Real64.ofUnits_ne_nan _ _
    rw [Option.getD_none]
    cases hl : kind.largest <;> simp_all [Real64.neg]
  | some v =>
    rw [Option.getD_some]
    obtain ⟨l, hl, hv⟩ := Option.bind_eq_some_iff.1 h
    have hfault : Definition.attributeFault? t.shape _ = none := (hK.valid t ht).annotated.literal_sound hl
    cases l with
    | int z =>
      obtain rfl := Option.some.inj hv
      exact Real64.ofRatio_ne_nan _ _ _
    | real w =>
      obtain rfl := Option.some.inj hv
      rintro rfl
      simp [Definition.attributeFault?, Definition.boundFault?, hs, Real64.isFinite] at hfault
    | _ => cases hv

theorem components_count (hK : Catalog K next) {t : Ty} (ht : t ∈ K) {n : Nat}
    (hs : t.shape.components? = some n) : 1 ≤ n ∧ n ≤ 4 :=
  Definition.components_count (hK.valid t ht).complete hs

theorem arguments_ne_nil (hK : Catalog K next) {t : Ty} (ht : t ∈ K)
    (hs : t.shape.isTemplate = true) : t.shape.arguments ≠ [] :=
  Definition.arguments_ne_nil (hK.valid t ht).complete hs

/-- Integers in the range of a type, as many as it has components, are content of it. -/
theorem ints_typed (hK : Catalog K next) {t : Ty} (ht : t ∈ K) {kind : IntKind} {n : Nat}
    (hs : t.shape = .integral kind n) {lo hi : Int} (hrange : t.intRange? = some (lo, hi))
    {zs : List Int} (hlength : zs.length = n) (hzs : ∀ z ∈ zs, lo ≤ z ∧ z ≤ hi) :
    (Content.ints zs : Content α).Typed K t := by
  obtain ⟨_, _, hrange', -, hlo, hhi⟩ := hK.intRange ht hs
  obtain ⟨rfl, rfl⟩ := Prod.mk.inj (Option.some.inj (hrange.symm.trans hrange'))
  refine .ints (.ints hs hlength (hK.components_count ht (by rw [hs]; rfl)) fun z hz => ?_)
    (hK.spans ht hs hrange hzs)
  have hz := hzs z hz
  simp only [IntKind.contains, Bool.and_eq_true, decide_eq_true_eq] at hlo hhi ⊢
  exact ⟨hlo.1.trans hz.1, hz.2.trans hhi.2⟩

theorem optional_argument (hK : Catalog K next) {t : Ty} (ht : t ∈ K) {argument : Option Ty}
    (hs : t.shape = .optional argument) : ∃ u, argument = some u := by
  cases argument with
  | none => exact absurd (by rw [hs]; rfl) (hK.arguments_ne_nil ht (by rw [hs]; rfl))
  | some u => exact ⟨u, rfl⟩

theorem array_argument (hK : Catalog K next) {t : Ty} (ht : t ∈ K) {argument : Option Ty}
    (hs : t.shape = .array argument) : ∃ u, argument = some u := by
  cases argument with
  | none => exact absurd (by rw [hs]; rfl) (hK.arguments_ne_nil ht (by rw [hs]; rfl))
  | some u => exact ⟨u, rfl⟩

end Catalog

/-- The default is zero, or the lower bound where zero is out of range. -/
theorem defaultInt_bounds {lo hi : Int} (h : lo ≤ hi) :
    lo ≤ defaultInt (lo, hi) ∧ defaultInt (lo, hi) ≤ hi := by
  unfold defaultInt
  split
  next hzero => exact hzero
  next => exact ⟨le_rfl, h⟩

theorem defaultReal_sound (kind : RealKind) {lo : Real64} (hi : Real64) (hlo : lo ≠ .nan) :
    defaultReal kind (lo, hi) ≠ .nan ∧
      kind.quantize (defaultReal kind (lo, hi)) = defaultReal kind (lo, hi) := by
  unfold defaultReal
  split
  · exact ⟨Real64.ofUnits_ne_nan _ _, kind.quantize_zero⟩
  · exact ⟨kind.quantize_ne_nan hlo, kind.quantize_quantize lo⟩

theorem Catalog.default_suits (hK : Catalog K next) {t : Ty} (ht : t ∈ K) {m : Member}
    (hm : m ∈ t.shape.members) {n : Node Ty} (hn : m.default = some n) : n.Suits K m.type := by
  have h := (hK.valid t ht).shape.defaults m hm n hn
  exact ⟨⟨h.fits, hK.default_mem ht hm hn, h.ranged⟩, h.type⟩

theorem defaultMembers_suits {ms : List Member} (hmem : ∀ m ∈ ms, m.type ∈ K)
    (hdeclared : ∀ m ∈ ms, ∀ n, m.default = some n → n.Suits K m.type)
    (ih : ∀ m ∈ ms, ∀ c, defaultContent m.type = .ok c → c.Typed K m.type) {ns : List (Node Ty)}
    (h : defaultMembers ms = .ok ns) : List.Forall₂ (fun n m => n.Suits K m.type) ns ms := by
  induction ms generalizing ns with
  | nil => cases h; exact .nil
  | cons m ms ihms =>
    simp only [List.forall_mem_cons] at hmem hdeclared ih
    rcases m with ⟨symbol, type, _ | declared⟩
    · rw [defaultMembers] at h
      simp only [Except.bind_eq_ok, underSite_eq_ok, Except.pure_eq_ok] at h
      obtain ⟨c, hc, rest, hrest, rfl⟩ := h
      exact .cons (Node.suits_mk hmem.1 (ih.1 c hc)) (ihms hmem.2 hdeclared.2 ih.2 hrest)
    · rw [defaultMembers] at h
      simp only [Except.bind_eq_ok, Except.pure_eq_ok] at h
      obtain ⟨rest, hrest, rfl⟩ := h
      exact .cons (hdeclared.1 declared rfl) (ihms hmem.2 hdeclared.2 ih.2 hrest)

theorem defaultContent_typed (hK : Catalog K next) {t : Ty} (ht : t ∈ K) {c : Content Ty}
    (h : defaultContent t = .ok c) : c.Typed K t := by
  induction t using Ty.inductOn generalizing c with
  | step t ih =>
    have ih' : ∀ u ∈ t.shape.components, ∀ c, defaultContent u = .ok c → c.Typed K u :=
      fun u hu c hc => ih u hu (hK.component_mem ht hu) hc
    rcases t with ⟨identity, symbol, id, shape, attributes, aliased⟩
    cases shape with
    | bool => cases h; exact .leaf (.bool rfl) rfl
    | integral kind n =>
      obtain ⟨lo, hi, hrange, hle, -, -⟩ := hK.intRange ht rfl
      rw [defaultContent, hrange] at h
      cases h
      refine hK.ints_typed ht rfl hrange List.length_replicate fun z hz => ?_
      rw [List.eq_of_mem_replicate hz]
      exact defaultInt_bounds hle
    | real kind n =>
      obtain ⟨lo, hi, hrange, hlo⟩ := hK.realRange_lower ht rfl
      rw [defaultContent, hrange] at h
      cases h
      refine .leaf (.reals rfl List.length_replicate (hK.components_count ht rfl) ?_) rfl
      intro v hv
      rw [List.eq_of_mem_replicate hv]
      exact defaultReal_sound kind hi hlo
    | string => cases h; exact .leaf (.text rfl) rfl
    | enum d =>
      rw [defaultContent] at h
      split at h
      next i hi =>
        cases h
        exact .leaf (.item rfl (((hK.valid _ ht).shape.items d rfl).default i hi)) rfl
      next => cases h
    | optional argument =>
      obtain ⟨u, rfl⟩ := hK.optional_argument ht rfl
      cases h
      exact .leaf (.empty rfl) rfl
    | variant alternatives =>
      cases alternatives with
      | nil => cases h
      | cons first rest =>
        rw [defaultContent, Except.bind_eq_ok] at h
        obtain ⟨c, hc, h⟩ := h
        cases h
        have hfirst : first ∈ (Shape.variant (first :: rest)).components := List.mem_cons_self
        exact .variant rfl rfl
          (Node.suits_mk (hK.component_mem ht hfirst) (ih' first hfirst c hc))
    | struct base members =>
      rw [defaultContent, Except.bind_eq_ok] at h
      obtain ⟨ns, hns, h⟩ := h
      cases h
      refine .struct rfl (defaultMembers_suits (fun m hm => hK.member_mem ht hm)
        (fun m hm n hn => hK.default_suits ht hm hn) (fun m hm => ih' m.type ?_) hns)
      exact List.mem_map.2 ⟨m, hm, rfl⟩
    | array argument =>
      obtain ⟨u, rfl⟩ := hK.array_argument ht rfl
      cases h
      exact .array rfl (by simp)

theorem mapM_eq_ok {σ τ : Type} {f : σ → Except Error τ} {xs : List σ} {ys : List τ}
    (h : xs.mapM f = .ok ys) : List.Forall₂ (fun x y => f x = .ok y) xs ys := by
  induction xs generalizing ys with
  | nil => cases h; exact .nil
  | cons x xs ih =>
    rw [List.mapM_cons] at h
    simp only [Except.bind_eq_ok, Except.pure_eq_ok] at h
    obtain ⟨y, hy, rest, hrest, rfl⟩ := h
    exact .cons hy (ih hrest)

theorem componentsOf_eq_ok {τ : Type} {t : Ty} {n : Nat} {component : Literal → Except Error τ}
    {l : Literal} {xs : List τ} (h : componentsOf t n component l = .ok xs) :
    xs.length = n ∧ ∀ x ∈ xs, ∃ l', component l' = .ok x := by
  unfold componentsOf at h
  split at h
  next hn =>
    simp only [Except.bind_eq_ok, Except.pure_eq_ok] at h
    obtain ⟨x, hx, rfl⟩ := h
    exact ⟨hn.symm, by simpa using ⟨l, hx⟩⟩
  next =>
    cases l with
    | list items =>
      simp only at h
      split at h
      next hlength =>
        have hall := mapM_eq_ok h
        refine ⟨hall.length_eq ▸ hlength, fun x hx => ?_⟩
        obtain ⟨l', -, hl'⟩ := forall₂_exists_left hall hx
        exact ⟨l', hl'⟩
      next => cases h
    | _ => cases h

theorem intComponent_bounds {t : Ty} {lo hi : Int} (hrange : t.intRange? = some (lo, hi))
    {l : Literal} {z : Int} (h : intComponent t l = .ok z) : lo ≤ z ∧ z ≤ hi := by
  cases l with
  | int z' =>
    simp only [intComponent, hrange] at h
    split at h
    next hz => cases h; exact hz
    next => cases h
  | _ => cases h

theorem realComponent_sound {t : Ty} {kind : RealKind} {l : Literal} {v : Real64}
    (h : realComponent t kind l = .ok v) : v ≠ .nan ∧ kind.quantize v = v := by
  have of_finite {w : Real64} (hw : w.isFinite = true) :
      kind.quantize w ≠ .nan ∧ kind.quantize (kind.quantize w) = kind.quantize w :=
    ⟨kind.quantize_ne_nan fun hnan => by simp [hnan, Real64.isFinite] at hw, kind.quantize_quantize w⟩
  rw [realComponent] at h
  split at h
  next => cases h
  next w _ =>
    split at h
    next => cases h
    next hfinite =>
      have hw : w.isFinite = true := by simpa using hfinite
      split at h
      next =>
        split at h
        next => cases h
        next => cases h; exact of_finite hw
      next => cases h; exact of_finite hw

theorem stageElements_eq_ok {σ τ : Type} {f : σ → Except Error τ} {i : Nat} {xs : List σ}
    {ys : List τ} (h : stageElements f i xs = .ok ys) :
    List.Forall₂ (fun x y => f x = .ok y) xs ys := by
  induction xs generalizing i ys with
  | nil => cases h; exact .nil
  | cons x xs ih =>
    simp only [stageElements, Except.bind_eq_ok, underSite_eq_ok, Except.pure_eq_ok] at h
    obtain ⟨y, hy, rest, hrest, rfl⟩ := h
    exact .cons hy (ih hrest)

theorem stageAlternativeLiteral_eq_some {alternatives : List Ty} {i : Nat} {l : Literal}
    {c : Content Ty} (h : stageAlternativeLiteral alternatives i l = some c) :
    ∃ j t inner, alternatives[j]? = some t ∧ stageLiteral t l = .ok inner ∧
      c = .variant (i + j) ⟨t, inner⟩ := by
  induction alternatives generalizing i with
  | nil => cases h
  | cons t rest ih =>
    rw [stageAlternativeLiteral] at h
    split at h
    next inner hinner =>
      cases h
      exact ⟨0, t, inner, rfl, hinner, rfl⟩
    next =>
      obtain ⟨j, u, inner, hj, hu, rfl⟩ := ih h
      exact ⟨j + 1, u, inner, hj, hu, by rw [Nat.add_right_comm, Nat.add_assoc]⟩

theorem stageMemberLiterals_suits {ms : List Member} {slots : List (Option Literal)}
    (hmem : ∀ m ∈ ms, m.type ∈ K) (hdefault : ∀ m ∈ ms, ∀ n, m.defaultNode = .ok n → n.Suits K m.type)
    (ih : ∀ m ∈ ms, ∀ l c, stageLiteral m.type l = .ok c → c.Typed K m.type) {ns : List (Node Ty)}
    (h : stageMemberLiterals ms slots = .ok ns) :
    List.Forall₂ (fun n m => n.Suits K m.type) ns ms := by
  induction ms generalizing slots ns with
  | nil => cases h; exact .nil
  | cons m ms ihms =>
    simp only [List.forall_mem_cons] at hmem hdefault ih
    rcases m with ⟨symbol, type, default⟩
    rw [stageMemberLiterals] at h
    simp only [Except.bind_eq_ok, underSite_eq_ok, Except.pure_eq_ok] at h
    obtain ⟨n, hn, rest, hrest, rfl⟩ := h
    refine .cons ?_ (ihms hmem.2 hdefault.2 ih.2 hrest)
    split at hn
    next l _ =>
      simp only [Except.bind_eq_ok, Except.pure_eq_ok] at hn
      obtain ⟨c, hc, rfl⟩ := hn
      exact Node.suits_mk hmem.1 (ih.1 l c hc)
    next => exact hdefault.1 n hn

/-- The default of a member, declared or not, suits it. -/
theorem defaultNode_suits (hK : Catalog K next) {t : Ty} (ht : t ∈ K) {m : Member}
    (hm : m ∈ t.shape.members) {n : Node Ty} (h : m.defaultNode = .ok n) : n.Suits K m.type := by
  rw [Member.defaultNode] at h
  split at h
  next declared hd => cases h; exact hK.default_suits ht hm hd
  next =>
    simp only [Except.bind_eq_ok, Except.pure_eq_ok] at h
    obtain ⟨c, hc, rfl⟩ := h
    exact Node.suits_mk (hK.member_mem ht hm) (defaultContent_typed hK (hK.member_mem ht hm) hc)

theorem Catalog.members_suit (hK : Catalog K next) {t : Ty} (ht : t ∈ K) {base : Option Ty} {members : List Member}
    (hs : t.shape = .struct base members) :
    (∀ m ∈ members, m.type ∈ K) ∧ ∀ m ∈ members, ∀ n, m.defaultNode = .ok n → n.Suits K m.type := by
  have hmembers : t.shape.members = members := by rw [hs]; rfl
  subst hmembers
  exact ⟨fun m hm => hK.member_mem ht hm, fun m hm n hn => defaultNode_suits hK ht hm hn⟩

/-- What a literal may be staged to, by the shape of the type. -/
inductive LiteralCase (t : Ty) : Literal → Content Ty → Prop where
  | bool (hs : t.shape = .bool) (b : Bool) : LiteralCase t (.bool b) (.bool b)
  | text (hs : t.shape = .string) (s : String) : LiteralCase t (.text s) (.text s)
  | ints {kind : IntKind} {n : Nat} (hs : t.shape = .integral kind n) {l : Literal} {zs : List Int}
      (hzs : componentsOf t n (intComponent t) l = .ok zs) : LiteralCase t l (.ints zs)
  | reals {kind : RealKind} {n : Nat} (hs : t.shape = .real kind n) {l : Literal} {vs : List Real64}
      (hvs : componentsOf t n (realComponent t kind) l = .ok vs) : LiteralCase t l (.reals vs)
  | null {argument : Option Ty} (hs : t.shape = .optional argument) : LiteralCase t .null (.optional none)
  | optional {u : Ty} (hs : t.shape = .optional (some u)) {l : Literal} {c : Content Ty} (hl : l ≠ .null)
      (hc : stageLiteral u l = .ok c) : LiteralCase t l (.optional (some ⟨u, c⟩))
  | variant {us : List Ty} (hs : t.shape = .variant us) {l : Literal} {c : Content Ty}
      (hc : stageAlternativeLiteral us 0 l = some c) : LiteralCase t l c
  | struct {base : Option Ty} {members : List Member} (hs : t.shape = .struct base members) {ls : List Literal}
      {slots : List (Option Literal)} {ns : List (Node Ty)}
      (hslots : memberSlots t members (ls.map fun l => (none, l)) = .ok slots)
      (hns : stageMemberLiterals members slots = .ok ns) : LiteralCase t (.list ls) (.struct ns)
  | array {u : Ty} (hs : t.shape = .array (some u)) {ls : List Literal} {ns : List (Node Ty)}
      (hns : stageElements (fun l => return ⟨u, ← stageLiteral u l⟩) 0 ls = .ok ns) :
      LiteralCase t (.list ls) (.array ns)

theorem stageLiteral_cases {t : Ty} {l : Literal} {c : Content Ty} (h : stageLiteral t l = .ok c) :
    LiteralCase t l c := by
  rcases t with ⟨_, _, _, shape, _, _⟩
  cases shape with
  | bool => cases l <;> cases h; exact .bool rfl _
  | string => cases l <;> cases h; exact .text rfl _
  | enum => cases h
  | integral =>
    rw [stageLiteral_integral rfl, Except.bind_pure_eq_ok] at h
    obtain ⟨zs, hzs, rfl⟩ := h
    exact .ints rfl hzs
  | real =>
    rw [stageLiteral_real rfl, Except.bind_pure_eq_ok] at h
    obtain ⟨vs, hvs, rfl⟩ := h
    exact .reals rfl hvs
  | optional argument =>
    by_cases hl : l = .null
    · subst hl
      rw [stageLiteral_null rfl] at h
      cases h
      exact .null rfl
    · cases argument with
      | none => cases l <;> cases h; exact absurd rfl hl
      | some u =>
        rw [stageLiteral_optional rfl hl, Except.bind_pure_eq_ok] at h
        obtain ⟨c, hc, rfl⟩ := h
        exact .optional rfl hl hc
  | variant us =>
    rw [stageLiteral_variant rfl] at h
    split at h
    next hc => cases h; exact .variant rfl hc
    next => cases h
  | struct base members =>
    cases l with
    | list ls =>
      rw [stageLiteral_struct rfl, Except.bind_eq_ok] at h
      obtain ⟨slots, hslots, h⟩ := h
      obtain ⟨ns, hns, rfl⟩ := Except.bind_pure_eq_ok.1 h
      exact .struct rfl hslots hns
    | _ => cases h
  | array argument =>
    cases argument with
    | none => cases l <;> cases h
    | some u =>
      cases l with
      | list ls =>
        rw [stageLiteral_array rfl, Except.bind_pure_eq_ok] at h
        obtain ⟨ns, hns, rfl⟩ := h
        exact .array rfl hns
      | _ => cases h

theorem Catalog.literal_ints_typed (hK : Catalog K next) {t : Ty} (ht : t ∈ K) {kind : IntKind} {n : Nat}
    (hs : t.shape = .integral kind n) {l : Literal} {zs : List Int}
    (hzs : componentsOf t n (intComponent t) l = .ok zs) : (Content.ints zs : Content α).Typed K t := by
  obtain ⟨hlength, hcomponent⟩ := componentsOf_eq_ok hzs
  obtain ⟨lo, hi, hrange, -⟩ := hK.intRange ht hs
  refine hK.ints_typed ht hs hrange hlength fun z hz => ?_
  obtain ⟨l', hl'⟩ := hcomponent z hz
  exact intComponent_bounds hrange hl'

theorem Catalog.literal_reals_typed (hK : Catalog K next) {t : Ty} (ht : t ∈ K) {kind : RealKind} {n : Nat}
    (hs : t.shape = .real kind n) {l : Literal} {vs : List Real64}
    (hvs : componentsOf t n (realComponent t kind) l = .ok vs) : (Content.reals vs : Content α).Typed K t := by
  obtain ⟨hlength, hcomponent⟩ := componentsOf_eq_ok hvs
  refine .leaf (.reals hs hlength (hK.components_count ht (by rw [hs]; rfl)) fun v hv => ?_) rfl
  obtain ⟨l', hl'⟩ := hcomponent v hv
  exact realComponent_sound hl'

theorem stageLiteral_typed (hK : Catalog K next) {t : Ty} (ht : t ∈ K) {l : Literal}
    {c : Content Ty} (h : stageLiteral t l = .ok c) : c.Typed K t := by
  induction t using Ty.inductOn generalizing l c with
  | step t ih =>
    have suits {u : Ty} (hu : u ∈ t.shape.components) {l : Literal} {c : Content Ty}
        (hc : stageLiteral u l = .ok c) : (⟨u, c⟩ : Node Ty).Suits K u :=
      have hmem := hK.component_mem ht hu
      Node.suits_mk hmem (ih u hu hmem hc)
    cases stageLiteral_cases h with
    | bool hs b => exact .leaf (.bool hs) rfl
    | text hs s => exact .leaf (.text hs) rfl
    | ints hs hzs => exact hK.literal_ints_typed ht hs hzs
    | reals hs hvs => exact hK.literal_reals_typed ht hs hvs
    | null hs =>
      obtain ⟨u, rfl⟩ := hK.optional_argument ht hs
      exact .leaf (.empty hs) rfl
    | optional hs hl hc => exact .optional hs (suits (Ty.component_optional hs) hc)
    | variant hs hc =>
      obtain ⟨j, u, inner, hj, hinner, rfl⟩ := stageAlternativeLiteral_eq_some hc
      have hu := Ty.component_variant hs (List.mem_of_getElem? hj)
      exact .variant hs (by rwa [Nat.zero_add]) (suits hu hinner)
    | struct hs hslots hns =>
      obtain ⟨hmem, hdefault⟩ := hK.members_suit ht hs
      refine .struct hs (stageMemberLiterals_suits hmem hdefault (fun m hm l c hc => ?_) hns)
      exact ih m.type (Ty.component_struct hs hm) (hmem m hm) hc
    | array hs hns =>
      refine .array hs fun n hn => ?_
      obtain ⟨l', -, hl'⟩ := forall₂_exists_left (stageElements_eq_ok hns) hn
      obtain ⟨c, hc, rfl⟩ := Except.bind_pure_eq_ok.1 hl'
      exact suits (Ty.component_array hs) hc

theorem EnumDef.find?_lt {d : EnumDef} {name : String} {i : Nat} (h : d.find? name = some i) :
    i < d.items.length := (List.findIdx?_eq_some_iff_getElem.1 h).1

theorem EnumDef.findByAnyName?_lt {d : EnumDef} {text : String} {i : Nat}
    (h : d.findByAnyName? text = some i) : i < d.items.length := by
  unfold EnumDef.findByAnyName? at h
  cases hname : d.find? text with
  | none => rw [hname] at h; exact (List.findIdx?_eq_some_iff_getElem.1 h).1
  | some j => rw [hname] at h; cases h; exact EnumDef.find?_lt hname

theorem readNumbers_typed (hK : Catalog K next) {t : Ty} (ht : t ∈ K) {n : Nat} {wanted : TextSort}
    {read? : List Char → Option Literal} {text : String} {c : Content Ty}
    (h : UiText.readNumbers t n wanted read? text = .ok c) : c.Typed K t := by
  obtain ⟨parts, -, h⟩ := Except.bind_eq_ok.1 h
  exact stageLiteral_typed hK ht h

theorem read_typed (hK : Catalog K next) {t : Ty} (ht : t ∈ K) {text : String} {c : Content Ty}
    (h : UiText.read t text = .ok c) : c.Typed K t := by
  unfold UiText.read at h
  split at h
  next hs =>
    simp only [UiText.readBool] at h
    split at h
    · cases h; exact .leaf (.bool hs) rfl
    · split at h
      · cases h; exact .leaf (.bool hs) rfl
      · cases h
  next => exact readNumbers_typed hK ht h
  next => exact readNumbers_typed hK ht h
  next hs => cases h; exact .leaf (.text hs) rfl
  next d hs =>
    simp only [UiText.readItem] at h
    split at h
    next i hi => cases h; exact .leaf (.item hs (EnumDef.findByAnyName?_lt hi)) rfl
    next => cases h
  next => cases h

end TypedValues
