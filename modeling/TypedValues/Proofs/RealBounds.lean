import TypedValues.Proofs.Invariant
import TypedValues.Proofs.Rounding
import TypedValues.Proofs.RoundTrip

/-! Ranges of reals. A literal is checked against the range before it is rounded to the kind, so a bound that
is not a number of the kind can be passed by what is stored. It is passed by nothing exactly if the bounds
themselves do not leave the range when they are rounded. -/

namespace TypedValues

/-- Rounding to the kind keeps the bounds inside the range. -/
structure RealKind.Inward (kind : RealKind) (lo hi : Real64) : Prop where
  ordered : lo.le hi = true
  lower : lo.le (kind.quantize lo) = true
  upper : (kind.quantize hi).le hi = true

/-- The literal of a number of components: a lone one is written as it is, others as a list. -/
def Literal.ofReals : List Real64 → Literal
  | [v] => .real v
  | vs => .list (vs.map .real)

namespace Ty

def Stages (t : Ty) (c : Content Ty) : Prop := defaultContent t = .ok c ∨ ∃ l, stageLiteral t l = .ok c

/-- The components are numbers in the range of the type, are written, and are accepted again as they are. -/
structure Accepts (t : Ty) (vs : List Real64) : Prop where
  finite : ∀ v ∈ vs, v.isFinite = true
  ranged : ∀ lo hi, t.realRange? = some (lo, hi) → ∀ v ∈ vs, Real64.within lo hi v = true
  written : ∃ d, encode t (.reals vs) = .ok d
  again : stageLiteral t (.ofReals vs) = .ok (.reals vs)

/-- There is a default, and it and everything taken from literals would be accepted. -/
structure Steady (t : Ty) : Prop where
  default : ∃ c, defaultContent t = .ok c
  accepts : ∀ c, t.Stages c → ∃ vs, c = .reals vs ∧ t.Accepts vs

end Ty

/-- Integers among the attributes have no more than 128 bits, as all integer literals of a host. -/
def Definition.Wide (d : Definition) : Prop :=
  ∀ key z, d.literal? key = some (.int z) → z.natAbs ≤ twoTo 127

namespace RealKind

theorem holds_largest (kind : RealKind) :
    kind.format.Holds kind.format.largest ∧ Binary.double.Holds kind.format.largest := by
  cases kind <;> decide +kernel

theorem quantize_ofUnits {kind : RealKind} {u : Nat} (h : kind.format.Holds u) (s : Bool) :
    kind.quantize (.ofUnits s u) = .ofUnits s u := by
  cases kind with
  | single => exact Real64.toFormat_ofUnits h s
  | double => rfl

theorem neg_largest (kind : RealKind) : kind.largest.neg = .ofUnits true kind.format.largest := by
  simp only [largest, Real64.ofUnits, (holds_largest kind).2, dite_true, Real64.neg, Bool.not_false]

theorem isFinite_largest (kind : RealKind) :
    kind.largest.isFinite = true ∧ kind.largest.neg.isFinite = true := by
  rw [neg_largest]
  exact ⟨Real64.isFinite_ofUnits (holds_largest kind).2 _, Real64.isFinite_ofUnits (holds_largest kind).2 _⟩

theorem le_largest {v : Real64} (h : v.isFinite = true) :
    double.largest.neg.le v = true ∧ v.le double.largest = true := by
  have hfinite := isFinite_largest double
  have hrank {s : Bool} : (Real64.ofUnits s double.format.largest).rank =
      Real64.signed s Binary.double.largest := by
    simp only [Real64.ofUnits, (holds_largest double).2, dite_true, Real64.rank]
    rfl
  have hv := (Real64.isFinite_iff.1 h).2
  unfold Real64.beyond at hv
  refine ⟨Real64.le_iff.2 ⟨Real64.ne_nan_of_isFinite hfinite.2, Real64.ne_nan_of_isFinite h, ?_⟩,
    Real64.le_iff.2 ⟨Real64.ne_nan_of_isFinite h, Real64.ne_nan_of_isFinite hfinite.1, ?_⟩⟩
  · rw [neg_largest, hrank, Real64.signed, if_pos rfl]
    omega
  · rw [largest, hrank, Real64.signed, if_neg Bool.false_ne_true]
    omega

theorem inward_double {lo hi : Real64} (h : lo.le hi = true) : double.Inward lo hi := by
  obtain ⟨hlo, hhi, -⟩ := Real64.le_iff.1 h
  exact ⟨h, Real64.le_refl hlo, Real64.le_refl hhi⟩

/-- The bounds of the kind itself are numbers of it. -/
theorem inward_largest (kind : RealKind) : kind.Inward kind.largest.neg kind.largest := by
  have hle : kind.largest.neg.le kind.largest = true := by cases kind <;> decide +kernel
  obtain ⟨hlo, hhi, -⟩ := Real64.le_iff.1 hle
  refine ⟨hle, ?_, ?_⟩
  · rw [neg_largest, quantize_ofUnits (holds_largest kind).1, ← neg_largest]
    exact Real64.le_refl hlo
  · rw [largest, quantize_ofUnits (holds_largest kind).1]
    exact Real64.le_refl hhi

end RealKind

namespace Definition.Annotated

variable {d : Definition}

theorem real_bound (h : d.Annotated) (hwide : d.Wide) {kind : RealKind} {n : Nat}
    (hs : d.shape = .real kind n) {key : String} (hkey : key = "min" ∨ key = "max") {l : Literal}
    (hl : d.literal? key = some l) : ∃ v, l.asReal? = some v ∧ v.isFinite = true := by
  have hfault := h.literal_sound hl
  cases l with
  | int z => exact ⟨_, rfl, Real64.isFinite_ofInt (hwide key z hl)⟩
  | real v =>
    refine ⟨v, rfl, ?_⟩
    rcases hkey with rfl | rfl <;> simpa [attributeFault?, boundFault?, hs] using hfault
  | _ => rcases hkey with rfl | rfl <;> simp [attributeFault?, boundFault?, hs] at hfault

/-- The range of a real type has numbers for its bounds, in order where both are declared. -/
theorem realRange (h : d.Annotated) (hwide : d.Wide) {kind : RealKind} {n : Nat}
    (hs : d.shape = .real kind n) : ∃ lo hi, d.realRange? = some (lo, hi) ∧
      lo.isFinite = true ∧ hi.isFinite = true ∧
      (kind = .double ∨ (d.literal? "min" = none ∧ d.literal? "max" = none) → kind.Inward lo hi) := by
  obtain ⟨hlargest, hneg⟩ := kind.isFinite_largest
  refine ⟨_, _, Definition.realRange?_of_shape hs, ?_⟩
  cases hmin : d.literal? "min" with
  | none =>
    cases hmax : d.literal? "max" with
    | none => exact ⟨hneg, hlargest, fun _ => kind.inward_largest⟩
    | some l =>
      obtain ⟨v, hv, hfinite⟩ := h.real_bound hwide hs (.inr rfl) hmax
      rw [Option.bind_none, Option.getD_none, Option.bind_some, hv, Option.getD_some]
      refine ⟨hneg, hfinite, fun hcase => ?_⟩
      obtain rfl : kind = .double := by simpa using hcase
      exact RealKind.inward_double (RealKind.le_largest hfinite).1
  | some l =>
    obtain ⟨v, hv, hfinite⟩ := h.real_bound hwide hs (.inl rfl) hmin
    rw [Option.bind_some, hv, Option.getD_some]
    cases hmax : d.literal? "max" with
    | none =>
      rw [Option.bind_none, Option.getD_none]
      refine ⟨hfinite, hlargest, fun hcase => ?_⟩
      obtain rfl : kind = .double := by simpa using hcase
      exact RealKind.inward_double (RealKind.le_largest hfinite).2
    | some m =>
      obtain ⟨w, hw, hfinite'⟩ := h.real_bound hwide hs (.inr rfl) hmax
      rw [Option.bind_some, hw, Option.getD_some]
      refine ⟨hfinite, hfinite', fun hcase => ?_⟩
      obtain rfl : kind = .double := by simpa using hcase
      have hordered := h.bounds _ _ hmin hmax
      rw [hs] at hordered
      exact RealKind.inward_double (by simpa [ordered, hv, hw] using hordered)

end Definition.Annotated

/-- The range of a real type without bounds of its own is that of its kind. -/
theorem Ty.realRange?_unbounded {t : Ty} {kind : RealKind} {n : Nat} (hs : t.shape = .real kind n)
    (hmin : t.definition.literal? "min" = none) (hmax : t.definition.literal? "max" = none) :
    t.realRange? = some (kind.largest.neg, kind.largest) := by
  rw [Ty.realRange?, Definition.realRange?_of_shape hs, hmin, hmax, Option.bind_none, Option.getD_none,
    Option.getD_none]

/-- A literal gives a component if it is a number in the range, and the component is the number rounded. -/
theorem realComponent_eq_ok {t : Ty} {kind : RealKind} {lo hi : Real64}
    (hrange : t.realRange? = some (lo, hi)) (hlo : lo ≠ .nan) (hhi : hi ≠ .nan) {l : Literal} {w : Real64} :
    realComponent t kind l = .ok w ↔
      ∃ v, l.asReal? = some v ∧ v.isFinite = true ∧ Real64.within lo hi v = true ∧ w = kind.quantize v := by
  cases hl : l.asReal? with
  | none => simp [realComponent, hl]
  | some v =>
    cases hv : v.isFinite with
    | false => simp [realComponent, hl, hv]
    | true =>
      have hnan := Real64.ne_nan_of_isFinite hv
      have hwithin : (v.lt lo || hi.lt v) = false ↔ Real64.within lo hi v = true := by
        rw [Bool.or_eq_false_iff, Real64.lt_eq_false_iff hnan hlo, Real64.lt_eq_false_iff hhi hnan,
          Real64.within, Bool.and_eq_true]
      simp only [realComponent, hl, hrange, hv, Bool.not_true, Bool.false_eq_true, if_false,
        Option.some.injEq, exists_eq_left', true_and]
      cases hc : v.lt lo || hi.lt v with
      | true =>
        have hout : ¬ Real64.within lo hi v = true := by rw [← hwithin, hc]; simp
        simp [hout]
      | false =>
        simp [hwithin.1 hc, eq_comm]

theorem componentsOf_ofReals {t : Ty} {n : Nat} {component : Literal → Except Error Real64}
    {g : Real64 → Real64} {vs : List Real64} (hlength : vs.length = n) (hn : 1 ≤ n)
    (h : ∀ v ∈ vs, component (.real v) = .ok (g v)) :
    componentsOf t n component (.ofReals vs) = .ok (vs.map g) := by
  have hreals : Literal.ofReals vs = UiText.components n (vs.map .real) := by
    rcases vs with _ | ⟨v, _ | ⟨w, vs⟩⟩
    · rfl
    · exact (if_pos hlength.symm).symm
    · rfl
  rw [hreals]
  exact componentsOf_components hlength hn h

section

variable {t : Ty} {kind : RealKind} {n : Nat} (hs : t.shape = .real kind n)

include hs

theorem defaultContent_real {lo hi : Real64} (hrange : t.realRange? = some (lo, hi)) :
    defaultContent t = .ok (.reals (List.replicate n (defaultReal kind (lo, hi)))) := by
  rcases t with ⟨_, _, _, _, _, _⟩; cases hs; rw [defaultContent, hrange]; rfl

theorem stageLiteral_ofReals {vs : List Real64} (hlength : vs.length = n) (hn : 1 ≤ n) {g : Real64 → Real64}
    (h : ∀ v ∈ vs, realComponent t kind (.real v) = .ok (g v)) :
    stageLiteral t (.ofReals vs) = .ok (.reals (vs.map g)) := by
  rw [stageLiteral_real hs, componentsOf_ofReals hlength hn h]
  rfl

variable {lo hi : Real64} (hrange : t.realRange? = some (lo, hi)) (hlo : lo.isFinite = true)
  (hhi : hi.isFinite = true)

include hrange hlo hhi

/-- What is stored lies between the bounds as they are rounded. -/
theorem stages_reals {c : Content Ty} (h : t.Stages c) : ∃ vs, c = .reals vs ∧ vs.length = n ∧
    ∀ v ∈ vs, kind.quantize v = v ∧
      (lo.le hi = true → Real64.within (kind.quantize lo) (kind.quantize hi) v = true) := by
  have hlo := Real64.ne_nan_of_isFinite hlo
  have hhi := Real64.ne_nan_of_isFinite hhi
  have rounded {v : Real64} (hv : Real64.within lo hi v = true) :
      Real64.within (kind.quantize lo) (kind.quantize hi) (kind.quantize v) = true := by
    rw [Real64.within, Bool.and_eq_true] at hv ⊢
    exact ⟨kind.quantize_mono hv.1, kind.quantize_mono hv.2⟩
  rcases h with h | ⟨l, h⟩
  · rw [defaultContent_real hs hrange] at h
    cases h
    refine ⟨_, rfl, List.length_replicate, fun v hv => ?_⟩
    rw [List.eq_of_mem_replicate hv]
    refine ⟨(defaultReal_sound kind hi hlo).2, fun hle => ?_⟩
    rw [defaultReal]
    split
    next hzero =>
      have hrounded := rounded hzero
      rwa [kind.quantize_zero] at hrounded
    next => exact rounded (by rw [Real64.within, hle, Real64.le_refl hlo, Bool.true_and])
  · rw [stageLiteral_real hs] at h
    simp only [Except.bind_eq_ok, Except.pure_eq_ok] at h
    obtain ⟨vs, hvs, rfl⟩ := h
    obtain ⟨hlength, hcomponent⟩ := componentsOf_eq_ok hvs
    refine ⟨vs, rfl, hlength, fun v hv => ?_⟩
    obtain ⟨l', hl'⟩ := hcomponent v hv
    refine ⟨(realComponent_sound hl').2, fun _ => ?_⟩
    obtain ⟨w, -, -, hw, rfl⟩ := (realComponent_eq_ok hrange hlo hhi).1 hl'
    exact rounded hw

/-- If rounding keeps the bounds inside the range, everything between the rounded bounds is accepted. -/
theorem accepts_of_inward (hin : kind.Inward lo hi) {vs : List Real64} (hlength : vs.length = n) (hn : 1 ≤ n)
    (hvs : ∀ v ∈ vs, kind.quantize v = v ∧
      Real64.within (kind.quantize lo) (kind.quantize hi) v = true) : t.Accepts vs := by
  have hranged : ∀ v ∈ vs, Real64.within lo hi v = true := by
    intro v hv
    have hbounds := (hvs v hv).2
    rw [Real64.within, Bool.and_eq_true] at hbounds ⊢
    exact ⟨Real64.le_trans hin.lower hbounds.1, Real64.le_trans hbounds.2 hin.upper⟩
  have hfinite : ∀ v ∈ vs, v.isFinite = true := by
    intro v hv
    have hbounds := hranged v hv
    rw [Real64.within, Bool.and_eq_true] at hbounds
    exact Real64.isFinite_of_between hlo hhi hbounds.1 hbounds.2
  have hcomponent : ∀ v ∈ vs, realComponent t kind (.real v) = .ok v := by
    intro v hv
    rw [realComponent_eq_ok hrange (Real64.ne_nan_of_isFinite hlo) (Real64.ne_nan_of_isFinite hhi)]
    exact ⟨v, rfl, hfinite v hv, hranged v hv, (hvs v hv).1.symm⟩
  refine ⟨hfinite, ?_, ?_, ?_⟩
  · intro lo' hi' hrange'
    obtain ⟨rfl, rfl⟩ := Prod.mk.inj (Option.some.inj (hrange.symm.trans hrange'))
    exact hranged
  · have hencode : ∀ v ∈ vs, encodeReal t v = .ok (.real v) := fun v hv => if_pos (hfinite v hv)
    obtain ⟨d, -, hd, -, -⟩ := encodeComponents_restored (t := t) hlength hn hencode (fun _ _ => rfl) hcomponent
    exact ⟨d, by rw [encode, hd]⟩
  · have hstage := stageLiteral_ofReals hs hlength hn (g := id) hcomponent
    rwa [List.map_id] at hstage

/-- A bound that is accepted as a literal stays in the range, and an empty range shows in the default. -/
theorem inward_of_steady (hn : 1 ≤ n) (h : t.Steady) : kind.Inward lo hi := by
  have hnlo := Real64.ne_nan_of_isFinite hlo
  have hnhi := Real64.ne_nan_of_isFinite hhi
  have hmem (v : Real64) : v ∈ List.replicate n v := List.mem_replicate.2 ⟨by omega, rfl⟩
  have bound {v : Real64} (hv : v.isFinite = true) (hwithin : Real64.within lo hi v = true) :
      Real64.within lo hi (kind.quantize v) = true := by
    have hcomponent : ∀ w ∈ List.replicate n v, realComponent t kind (.real w) = .ok (kind.quantize w) := by
      intro w hw
      rw [List.eq_of_mem_replicate hw, realComponent_eq_ok hrange hnlo hnhi]
      exact ⟨v, rfl, hv, hwithin, rfl⟩
    have hstage := stageLiteral_ofReals hs List.length_replicate hn hcomponent
    obtain ⟨vs, hvs, haccepts⟩ := h.accepts _ (.inr ⟨_, hstage⟩)
    cases hvs
    exact haccepts.ranged lo hi hrange _ (List.mem_map_of_mem (hmem v))
  have hordered : lo.le hi = true := by
    obtain ⟨vs, hvs, haccepts⟩ := h.accepts _ (.inl (defaultContent_real hs hrange))
    cases hvs
    have hdefault := haccepts.ranged lo hi hrange _ (hmem _)
    rw [Real64.within, Bool.and_eq_true] at hdefault
    exact Real64.le_trans hdefault.1 hdefault.2
  have hlower := bound hlo (by rw [Real64.within, Real64.le_refl hnlo, hordered]; rfl)
  have hupper := bound hhi (by rw [Real64.within, Real64.le_refl hnhi, hordered]; rfl)
  rw [Real64.within, Bool.and_eq_true] at hlower hupper
  exact ⟨hordered, hlower.1, hupper.2⟩

end

namespace Session

/-- The components that a real type has by default or takes from literals lie between its bounds as they are
rounded. All of them are numbers in the range, written, and accepted again as they are, exactly if rounding
keeps the bounds inside the range, as it does in double precision and where no bounds are declared. -/
theorem reals_accepted_again {s : Session} (hs : s.Reachable) {t : Ty} (ht : s.Knows t) {kind : RealKind}
    {n : Nat} (hshape : t.shape = .real kind n) (hwide : t.definition.Wide) :
    ∃ lo hi, t.realRange? = some (lo, hi) ∧ lo.isFinite = true ∧ hi.isFinite = true ∧
      (lo.le hi = true → ∀ c, t.Stages c → ∃ vs, c = .reals vs ∧
        ∀ v ∈ vs, Real64.within (kind.quantize lo) (kind.quantize hi) v = true) ∧
      (t.Steady ↔ kind.Inward lo hi) ∧
      (kind = .double ∨ (t.definition.literal? "min" = none ∧ t.definition.literal? "max" = none) →
        t.Steady) := by
  obtain ⟨K, hK⟩ := hs.invariant
  have hcatalog := hK.sound.catalog
  have htK := hK.sound.knows ht
  have hn := (hcatalog.components_count htK (by rw [hshape]; rfl)).1
  obtain ⟨lo, hi, hrange, hlo, hhi, hinward⟩ := (hcatalog.valid t htK).annotated.realRange hwide hshape
  have hsteady (hin : kind.Inward lo hi) : t.Steady := by
    refine ⟨⟨_, defaultContent_real hshape hrange⟩, fun c hc => ?_⟩
    obtain ⟨vs, rfl, hlength, hvs⟩ := stages_reals hshape hrange hlo hhi hc
    refine ⟨vs, rfl, accepts_of_inward hshape hrange hlo hhi hin hlength hn fun v hv => ?_⟩
    exact ⟨(hvs v hv).1, (hvs v hv).2 hin.ordered⟩
  refine ⟨lo, hi, hrange, hlo, hhi, ?_, ⟨inward_of_steady hshape hrange hlo hhi hn, hsteady⟩,
    fun hcase => hsteady (hinward hcase)⟩
  intro hle c hc
  obtain ⟨vs, rfl, -, hvs⟩ := stages_reals hshape hrange hlo hhi hc
  exact ⟨vs, rfl, fun v hv => (hvs v hv).2 hle⟩

-- Bounds that are not numbers of their kind: an upper one that is rounded up, and a lower one that single precision
-- does not reach.
def floatType : Ty :=
  ((Definition.fresh "float" (.real .single 1)).register Namespace.rootScope .root 10).withIdentity 10

def level : Definition :=
  { Definition.fresh "level" (.real .single 1) with attributes := [⟨"max", .literal (.int 16777219)⟩] }

def levelType : Ty := level.withIdentity Namespace.builtins.length

def distant : Real64 := .finite false (twoTo 2074) (by decide +kernel)

def peak : Definition :=
  { Definition.fresh "peak" (.real .single 1) with attributes := [⟨"min", .literal (.real distant)⟩] }

def peakType : Ty := peak.withIdentity (Namespace.builtins.length + 1)

def gauged : Session :=
  ((sealType "peak" peak "peak").run ((sealType "level" level "level").run initial).1).1

theorem gauged_reachable : gauged.Reachable := by
  have fresh {s : Session} (name : String) : s.Builds (.fresh name (.real .single 1)) := .fresh name rfl
  have hlevel : initial.Builds level := (fresh "level").annotate (a := ⟨"max", .literal (.int 16777219)⟩) rfl
  have hfirst := Reachable.sealType Relation.ReflTransGen.refl hlevel "level"
  exact hfirst.sealType ((fresh "peak").annotate (a := ⟨"min", .literal (.real distant)⟩) rfl) "peak"

theorem gauged_knows : gauged.Knows levelType ∧ gauged.Knows peakType := by
  have hlevel : gauged.types.get? "level" = some levelType := by rfl
  have hpeak : gauged.types.get? "peak" = some peakType := by rfl
  exact ⟨.kept hlevel, .kept hpeak⟩

theorem levelType_range :
    levelType.realRange? = some (RealKind.single.largest.neg, Real64.ofInt 16777219) := by
  have hmin : levelType.definition.literal? "min" = none := rfl
  have hmax : levelType.definition.literal? "max" = some (.int 16777219) := rfl
  rw [Ty.realRange?, Definition.realRange?_of_shape (n := 1) rfl, hmin, hmax, Option.bind_none,
    Option.getD_none, Option.bind_some, Literal.asReal?, Option.getD_some]

theorem peakType_range : peakType.realRange? = some (distant, RealKind.single.largest) := by
  have hmin : peakType.definition.literal? "min" = some (.real distant) := rfl
  have hmax : peakType.definition.literal? "max" = none := rfl
  rw [Ty.realRange?, Definition.realRange?_of_shape (n := 1) rfl, hmin, hmax, Option.bind_none,
    Option.getD_none, Option.bind_some, Literal.asReal?, Option.getD_some]

/-- The builtin `float` keeps to its range, and the level, whose bound is rounded up, does not. -/
theorem reals_accepted_again_gauged : gauged.Reachable ∧ gauged.Knows floatType ∧ floatType.Steady ∧
    gauged.Knows levelType ∧ ¬ levelType.Steady := by
  have hfloat : gauged.Knows floatType := by
    have hten : gauged.space.type? 10 = some floatType := rfl
    exact .registered hten
  have hshape : levelType.shape = .real .single 1 := rfl
  have hwide : levelType.definition.Wide := by
    intro key z h
    obtain rfl | hkey := eq_or_ne key "max"
    · have hz : Literal.int 16777219 = .int z := Option.some.inj h
      obtain rfl := Literal.int.inj hz
      decide +kernel
    · have hnone : levelType.definition.attribute? key = none := by
        rw [Definition.attribute?, List.find?_eq_none]
        intro a ha
        obtain rfl := List.mem_singleton.1 ha
        simpa using hkey.symm
      rw [Definition.literal?, hnone] at h
      cases h
  obtain ⟨-, -, -, -, -, -, -, hsteady⟩ :=
    reals_accepted_again gauged_reachable hfloat rfl (fun key z h => by cases h)
  obtain ⟨lo, hi, hrange, -, -, -, hlevel, -⟩ :=
    reals_accepted_again gauged_reachable gauged_knows.1 hshape hwide
  refine ⟨gauged_reachable, hfloat, hsteady (.inr ⟨rfl, rfl⟩), gauged_knows.1, fun h => ?_⟩
  have hupper := (hlevel.1 h).upper
  rw [(Prod.mk.inj (Option.some.inj (hrange.symm.trans levelType_range))).2] at hupper
  exact absurd hupper (by decide +kernel)

/-- A literal at the bound is stored above it and is then refused, and the default that follows a bound out
of reach is infinite and not written. -/
theorem reals_escape : gauged.Reachable ∧ gauged.Knows levelType ∧ gauged.Knows peakType ∧
    (∃ v, stageLiteral levelType (.int 16777219) = .ok (.reals [v]) ∧ (Real64.ofInt 16777219).lt v = true ∧
      ∀ c, stageLiteral levelType (.real v) ≠ .ok c) ∧
    defaultContent peakType = .ok (.reals [.infinite false]) ∧
    ∀ d, encode peakType (.reals [.infinite false]) ≠ .ok d := by
  have hlarge : RealKind.single.largest.neg ≠ .nan ∧ Real64.ofInt 16777219 ≠ .nan := by decide +kernel
  have hcomponent {l : Literal} {w : Real64} : realComponent levelType .single l = .ok w ↔ _ :=
    realComponent_eq_ok levelType_range hlarge.1 hlarge.2
  refine ⟨gauged_reachable, gauged_knows.1, gauged_knows.2,
    ⟨RealKind.single.quantize (.ofInt 16777219), ?_, by decide +kernel, fun c hc => ?_⟩, ?_, ?_⟩
  · have hstored : realComponent levelType .single (.int 16777219) =
        .ok (RealKind.single.quantize (.ofInt 16777219)) :=
      hcomponent.2 ⟨_, rfl, by decide +kernel, by decide +kernel, rfl⟩
    rw [stageLiteral_real (n := 1) rfl]
    unfold componentsOf
    rw [if_pos rfl, hstored]
    rfl
  · rw [stageLiteral_real (n := 1) rfl] at hc
    simp only [Except.bind_eq_ok, Except.pure_eq_ok] at hc
    obtain ⟨vs, hvs, rfl⟩ := hc
    unfold componentsOf at hvs
    rw [if_pos rfl] at hvs
    simp only [Except.bind_eq_ok, Except.pure_eq_ok] at hvs
    obtain ⟨w, hw, rfl⟩ := hvs
    obtain ⟨v, hv, -, hwithin, -⟩ := hcomponent.1 hw
    obtain rfl := Option.some.inj hv
    exact absurd hwithin (by decide +kernel)
  · have hdefault : defaultReal .single (distant, RealKind.single.largest) = .infinite false := by
      decide +kernel
    rw [defaultContent_real (n := 1) rfl peakType_range, hdefault]
    rfl
  · intro d hd
    cases hd

end Session

end TypedValues
