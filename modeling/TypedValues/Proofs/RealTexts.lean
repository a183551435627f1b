import TypedValues.Proofs.Nearest
import TypedValues.Proofs.Overwriting
import TypedValues.Proofs.UiTexts

/-! Texts of reals. The shortest text of a number is read as the nearest double. In double precision this is
the number. In single precision it is a double in the rounding interval of the number, so that it may lie
outside a range that the number is in, and at an end of the interval it may be rounded to a neighbour. -/

namespace TypedValues

namespace Reading

def isMark (c : Char) : Bool := c.isDigit || c == '.'

theorem isMark_iff {c : Char} : isMark c = true ↔ c.isDigit = true ∨ c = '.' := by
  rw [isMark, Bool.or_eq_true, beq_iff_eq]

theorem toLower_mark {c : Char} (h : isMark c = true) : c.toLower = c := by
  rcases isMark_iff.1 h with h | rfl
  · simp only [Char.isDigit, Bool.and_eq_true, decide_eq_true_eq] at h
    exact dif_neg fun hupper => absurd (UInt32.le_trans hupper.1 h.2) (by decide)
  · rfl

theorem plain_mark {c : Char} (h : isMark c = true) : c ≠ ',' ∧ Text.isBlank c = false := by
  rcases isMark_iff.1 h with h | rfl
  · refine ⟨?_, not_blank_of_isDigit h⟩
    rintro rfl
    exact absurd h (by decide)
  · decide

theorem mem_withPoint {ds : List Char} (h : ∀ c ∈ ds, c.isDigit = true) {places : Nat} {c : Char}
    (hc : c ∈ withPoint ds places) : isMark c = true := by
  have hpadded : ∀ c ∈ List.replicate (places + 1 - ds.length) '0' ++ ds, c.isDigit = true := by
    intro c hc
    rcases List.mem_append.1 hc with hc | hc
    · rw [List.eq_of_mem_replicate hc]
      rfl
    · exact h c hc
  unfold withPoint at hc
  simp only at hc
  rw [isMark_iff]
  split_ifs at hc
  · exact .inl (hpadded c (List.mem_of_mem_take hc))
  · rcases List.mem_append.1 hc with hc | hc
    · exact .inl (hpadded c (List.mem_of_mem_take hc))
    · rcases List.mem_cons.1 hc with rfl | hc
      · exact .inr rfl
      · exact .inl (hpadded c (List.mem_of_mem_drop hc))

theorem positional_marks (d : Decimal) : ∀ c ∈ d.positional, isMark c = true := fun _ hc =>
  mem_withPoint (fun _ => Nat.isDigit_of_mem_toDigits (by decide) (by decide)) hc

theorem decimal?_whole {ds : List Char} (h : ∀ c ∈ ds, c.isDigit = true) (negative : Bool) :
    decimal? negative ds = (digits? ds).map (scaled negative · 0) := by
  unfold decimal?
  rw [List.takeWhile_eq_self_iff.2 h, List.dropWhile_eq_nil_iff.2 h]
  simp only [List.append_nil, exponent?]
  cases digits? ds <;> rfl

theorem decimal?_point {whole fraction : List Char} (hwhole : ∀ c ∈ whole, c.isDigit = true)
    (hfraction : ∀ c ∈ fraction, c.isDigit = true) (negative : Bool) :
    decimal? negative (whole ++ '.' :: fraction) =
      (digits? (whole ++ fraction)).map (scaled negative · (-fraction.length)) := by
  have hpoint : ¬ Char.isDigit '.' = true := by decide
  unfold decimal?
  rw [List.takeWhile_append_of_pos hwhole, List.dropWhile_append_of_pos hwhole,
    List.takeWhile_cons_of_neg hpoint, List.dropWhile_cons_of_neg hpoint, List.append_nil]
  simp only [List.takeWhile_eq_self_iff.2 hfraction, List.dropWhile_eq_nil_iff.2 hfraction, exponent?]
  cases digits? (whole ++ fraction) with
  | none => rfl
  | some n => simp only [Int.zero_sub, Option.map_some]

theorem digits?_padded (k n : Nat) : digits? (List.replicate k '0' ++ digitsOf n) = some n := by
  rw [digits?_eq_some]
  refine ⟨List.append_ne_nil_of_right_ne_nil _ Nat.toDigits_ne_nil, ?_, ?_⟩
  · intro c hc
    rcases List.mem_append.1 hc with hc | hc
    · rw [List.eq_of_mem_replicate hc]
      rfl
    · exact Nat.isDigit_of_mem_toDigits (by decide) (by decide) hc
  · rw [Nat.ofDigitChars_append, Nat.ofDigitChars_replicate_zero, Nat.mul_zero]
    exact Nat.ofDigitChars_ten_toDigits

/-- The point is found where it was put. -/
theorem decimal?_withPoint (negative : Bool) (n places : Nat) :
    decimal? negative (withPoint (digitsOf n) places) = some (scaled negative n (-places)) := by
  have hdigits := digits?_padded (places + 1 - (digitsOf n).length) n
  have hall := (digits?_eq_some.1 hdigits).2.1
  have hlength : places < (List.replicate (places + 1 - (digitsOf n).length) '0' ++ digitsOf n).length := by
    rw [List.length_append, List.length_replicate]
    omega
  unfold withPoint
  simp only
  generalize List.replicate (places + 1 - (digitsOf n).length) '0' ++ digitsOf n = padded at *
  split_ifs with hplaces
  · subst hplaces
    rw [Nat.sub_zero, List.take_length, decimal?_whole hall, hdigits]
    rfl
  · rw [decimal?_point (fun c hc => hall c (List.mem_of_mem_take hc)) (fun c hc => hall c (List.mem_of_mem_drop hc)),
      List.take_append_drop, hdigits, List.length_drop, Nat.sub_sub_self (Nat.le_of_lt hlength)]
    rfl

theorem real?_marks {cs : List Char} (h : ∀ c ∈ cs, isMark c = true) (negative : Bool) :
    real? (if negative then '-' :: cs else cs) = decimal? negative cs := by
  have hsigned : signed (if negative then '-' :: cs else cs) = (negative, cs) := by
    cases negative with
    | true => rfl
    | false =>
      simp only [Bool.false_eq_true, if_false, signed]
      split
      · exact absurd (h '-' List.mem_cons_self) (by decide)
      · exact absurd (h '+' List.mem_cons_self) (by decide)
      · rfl
  have hword : cs.map Char.toLower = cs := by
    conv_rhs => rw [← List.map_id cs]
    exact List.map_congr_left fun c hc => toLower_mark (h c hc)
  have hfirst {c : Char} {rest : List Char} (hc : isMark c = false) : cs ≠ c :: rest := by
    rintro rfl
    rw [h c List.mem_cons_self] at hc
    cases hc
  unfold real?
  simp only [hsigned, hword]
  rw [if_neg (hfirst (by decide)), if_neg (not_or.2 ⟨hfirst (by decide), hfirst (by decide)⟩)]

/-- A decimal in the interval of a number is within the places that are read. -/
theorem scaled_of_contains {f : Binary.Format} {u n places : Nat} (hlargest : f.largest ≤ Binary.double.largest)
    (hu : f.Holds u) (hpos : 0 < u)
    (h : (Decimal.Interval.around f u).contains (4 * (n * Binary.one)) (tenTo places) = true) (negative : Bool) :
    scaled negative n (-places) = .ofRatio negative (n * Binary.one) (tenTo places) := by
  obtain ⟨hlow, hhigh⟩ := Decimal.Interval.scale_of_contains hu hpos h
  have hten := tenTo_pos places
  have hdigits : 0 < (Nat.toDigits 10 n).length := Nat.length_toDigits_pos
  have hn : n ≠ 0 := by
    rintro rfl
    have := Nat.mul_pos hpos hten
    omega
  have hbelow : ¬ (Nat.toDigits 10 n).length + 400 < places := by
    intro hlt
    have hshort : n < tenTo (places - 401) := (Nat.length_toDigits_le_iff (by decide) (by omega)).1 (by omega)
    have hsmall : 2 * Binary.one ≤ tenTo 401 := by decide +kernel
    have hsplit : tenTo places = tenTo 401 * tenTo (places - 401) := by
      rw [← tenTo_add, Nat.add_sub_cancel' (by omega)]
    have hreach : tenTo places ≤ n * tenTo 401 := by
      calc tenTo places ≤ u * tenTo places := Nat.le_mul_of_pos_left _ hpos
        _ ≤ 2 * (n * Binary.one) := hlow
        _ = n * (2 * Binary.one) := Nat.mul_left_comm ..
        _ ≤ n * tenTo 401 := Nat.mul_le_mul_left _ hsmall
    rw [hsplit, Nat.mul_comm] at hreach
    exact absurd (Nat.le_of_mul_le_mul_right hreach (tenTo_pos _)) (Nat.not_le.2 hshort)
  have habove : (Nat.toDigits 10 n).length ≤ 400 + places := by
    rw [Nat.length_toDigits_le_iff (by decide) (by omega)]
    have hlarge : 2 * Binary.double.largest < tenTo 400 * Binary.one := by decide +kernel
    refine Nat.lt_of_mul_lt_mul_right (a := Binary.one) ?_
    calc n * Binary.one ≤ 2 * (u * tenTo places) := hhigh
      _ = 2 * u * tenTo places := (Nat.mul_assoc ..).symm
      _ ≤ 2 * Binary.double.largest * tenTo places :=
        Nat.mul_le_mul_right _ (Nat.mul_le_mul_left _ (hu.1.trans hlargest))
      _ < tenTo 400 * Binary.one * tenTo places := Nat.mul_lt_mul_of_pos_right hlarge hten
      _ = tenTo 400 * tenTo places * Binary.one := Nat.mul_right_comm ..
      _ = tenTo (400 + places) * Binary.one := by rw [tenTo_add]
  unfold scaled
  simp only
  rw [if_neg (by omega), if_neg (by omega), Int.neg_neg, Int.toNat_natCast, Int.toNat_of_nonpos (by omega)]
  rw [show n * tenTo 0 = n from Nat.mul_one n]

end Reading

namespace Real64

theorem ofUnits_eq {u : Nat} (h : Binary.double.Holds u) (negative : Bool) :
    ofUnits negative u = .finite negative u h := by
  rw [ofUnits, dif_pos h]

theorem ofRatio_eq {n d u : Nat} (h : Binary.double.round n d = some u) (negative : Bool) :
    ofRatio negative n d = ofUnits negative u := by
  unfold ofRatio
  split
  next w hw =>
    cases Option.some.inj (h.symm.trans hw)
    rfl
  next hnone => cases h.symm.trans hnone

end Real64

namespace RealKind

open Decimal (Interval shortest)

variable {kind : RealKind} {negative : Bool} {u w : Nat} {hu : Binary.double.Holds u}
  {hw : Binary.double.Holds w} {lo hi x r : Real64}

structure Admits (kind : RealKind) (lo hi x : Real64) : Prop where
  finite : x.isFinite = true
  quantized : kind.quantize x = x
  ranged : Real64.within lo hi x = true

/-- What can be read from the shortest text of a number. The sign is that of the number, and the magnitude is
in the rounding interval or at an end of it. It is rounded to the number again, unless it is at an end that does
not belong to the interval. -/
inductive Near (kind : RealKind) : Real64 → Real64 → Prop where
  | intro {negative : Bool} {u w : Nat} {hu : Binary.double.Holds u} {hw : Binary.double.Holds w}
      (lower : (Interval.around kind.format u).lower ≤ 4 * w)
      (upper : 4 * w ≤ (Interval.around kind.format u).upper)
      (rounded : kind.quantize (.finite negative w hw) = .finite negative u hu ∨
        (Interval.around kind.format u).Tie (4 * w)) : Near kind (.finite negative u hu) (.finite negative w hw)

theorem Near.isFinite (h : kind.Near x r) : r.isFinite = true := by
  cases h with | intro => rfl

theorem holds_of_quantize (h : kind.quantize (.finite negative u hu) = .finite negative u hu) :
    kind.format.Holds u := by
  cases kind with
  | double => exact hu
  | single =>
    rw [quantize, Real64.toFormat] at h
    split at h
    next v hv =>
      have hholds : Binary.single.Holds v := Binary.Format.holds_of_round (by decide) Nat.one_pos hv
      rw [Real64.ofUnits_eq (Binary.holds_double hholds)] at h
      cases h
      exact hholds
    next => cases h

theorem quantize_of_contains (hk : kind.format.Holds u)
    (h : (Interval.around kind.format u).contains (4 * w) 1 = true) :
    kind.quantize (.finite negative w hw) = .finite negative u hu := by
  have hround : kind.format.round w 1 = some u :=
    Interval.round_of_contains (by cases kind <;> decide) hk Nat.one_pos h
  cases kind with
  | single =>
    rw [quantize, Real64.toFormat, show Binary.single.round w 1 = some u from hround]
    exact Real64.ofUnits_eq hu negative
  | double =>
    have hself : Binary.double.round w 1 = some w := Binary.Format.round_of_holds hw
    cases Option.some.inj (hself.symm.trans hround)
    rfl

theorem largest_le (kind : RealKind) : kind.format.largest ≤ Binary.double.largest := by
  cases kind <;> decide +kernel

theorem contains_shortest (hk : kind.format.Holds u) (hpos : 0 < u) : (Interval.around kind.format u).contains
    (4 * ((shortest kind.format u).coefficient * tenTo (shortest kind.format u).exponent.toNat * Binary.one))
    (tenTo (-(shortest kind.format u).exponent).toNat) = true :=
  Decimal.contains_shortest (by cases kind <;> decide) (largest_le kind) hk.1 hpos

/-- The double nearest to the shortest decimal does not leave the interval; in double precision it is the
number itself. -/
theorem round_shortest (hk : kind.format.Holds u) (hpos : 0 < u) : ∃ w, Binary.double.round
    ((shortest kind.format u).coefficient * tenTo (shortest kind.format u).exponent.toNat * Binary.one)
      (tenTo (-(shortest kind.format u).exponent).toNat) = some w ∧
    (Interval.around kind.format u).lower ≤ 4 * w ∧ 4 * w ≤ (Interval.around kind.format u).upper ∧
    (kind = .double → w = u) := by
  have hcontains := contains_shortest hk hpos
  cases kind with
  | single =>
    obtain ⟨w, hw, hlower, hupper⟩ := Interval.round_between hk hpos (tenTo_pos _) hcontains
    exact ⟨w, hw, hlower, hupper, fun h => by cases h⟩
  | double =>
    exact ⟨u, Interval.round_of_contains (by decide) hk (tenTo_pos _) hcontains, Nat.sub_le .., Nat.le_add_right ..,
      fun _ => rfl⟩

theorem toList_realText (h : kind.quantize (.finite negative u hu) = .finite negative u hu) :
    (UiText.realText kind none (.finite negative u hu)).toList =
      if negative then '-' :: (shortest kind.format u).positional else (shortest kind.format u).positional := by
  rw [UiText.realText, h, Real64.textAt, Real64.textWith, Real64.signText, String.toList_ofList]

/-- The shortest text of a number of the kind is read as a number near to it. -/
theorem real?_realText (h : kind.Admits lo hi x) : ∃ r,
    Reading.real? (UiText.realText kind none x).toList = some r ∧ kind.Near x r ∧ (kind = .double → r = x) := by
  obtain ⟨hfinite, hx, -⟩ := h
  cases x with
  | nan | infinite => cases hfinite
  | finite negative u hu =>
    have hk := holds_of_quantize hx
    have near {w : Nat} {hw : Binary.double.Holds w} (hlower : (Interval.around kind.format u).lower ≤ 4 * w)
        (hupper : 4 * w ≤ (Interval.around kind.format u).upper) :
        kind.Near (.finite negative u hu) (.finite negative w hw) :=
      .intro hlower hupper ((Interval.contains_or_tie hlower hupper).imp_left (quantize_of_contains hk))
    rw [toList_realText hx, Reading.real?_marks (Reading.positional_marks _), Decimal.positional,
      Reading.decimal?_withPoint]
    rcases Nat.eq_zero_or_pos u with rfl | hpos
    · refine ⟨.finite negative 0 hu, congrArg some ?_, near (Nat.sub_le ..) (Nat.zero_le _), fun _ => rfl⟩
      have hzero : (shortest kind.format 0).coefficient = 0 := rfl
      rw [hzero, Nat.zero_mul, Reading.scaled, if_pos (.inl rfl), Real64.ofUnits_eq hu]
    · obtain ⟨w, hround, hlower, hupper, hdouble⟩ := round_shortest hk hpos
      have hw : Binary.double.Holds w := Binary.Format.holds_of_round (by decide) (tenTo_pos _) hround
      refine ⟨.finite negative w hw, congrArg some ?_, near hlower hupper, fun h => ?_⟩
      · rw [Reading.scaled_of_contains (largest_le kind) hk hpos (contains_shortest hk hpos),
          Real64.ofRatio_eq hround, Real64.ofUnits_eq hw]
      · cases hdouble h
        rfl

/-- Only the largest numbers can be read as something beyond them. -/
theorem Near.within_largest (h : kind.Near x r) (hx : kind.quantize x = x)
    (hlower : x.equals kind.largest.neg = false) (hupper : x.equals kind.largest = false) :
    Real64.within kind.largest.neg kind.largest r = true := by
  cases h with
  | @intro negative u w hu hw _ upper =>
    have hk := holds_of_quantize hx
    obtain ⟨hlargest, hdouble⟩ := holds_largest kind
    have hne : u ≠ kind.format.largest := by
      rintro rfl
      rw [neg_largest, Real64.ofUnits_eq hdouble] at hlower
      rw [largest, Real64.ofUnits_eq hdouble] at hupper
      cases negative <;> simp [Real64.equals] at hlower hupper
    have hstep := Binary.Format.add_step_le hk hlargest (Nat.lt_of_le_of_ne hk.1 hne)
    rw [Interval.around_eq] at upper
    simp only at upper
    rw [Real64.within, neg_largest, largest, Real64.ofUnits_eq hdouble, Real64.ofUnits_eq hdouble]
    cases negative <;> simp [Real64.le, Real64.signed] <;> omega

theorem realText_plain (h : kind.Admits lo hi x) :
    ',' ∉ (UiText.realText kind none x).toList ∧ Text.Tight (UiText.realText kind none x).toList := by
  obtain ⟨hfinite, hx, -⟩ := h
  have hchars : ∀ c ∈ (UiText.realText kind none x).toList, c ≠ ',' ∧ Text.isBlank c = false := by
    cases x with
    | nan | infinite => cases hfinite
    | finite negative u hu =>
      intro c hc
      rw [toList_realText hx] at hc
      split at hc
      · rcases List.mem_cons.1 hc with rfl | hc
        · decide
        · exact Reading.plain_mark (Reading.positional_marks _ c hc)
      · exact Reading.plain_mark (Reading.positional_marks _ c hc)
  exact ⟨fun hmem => (hchars _ hmem).1 rfl, Text.tight_of_not_blank fun c hc => (hchars c hc).2⟩

end RealKind

namespace UiText

def realsText (kind : RealKind) (vs : List Real64) : String := joined (vs.map (realText kind none))

variable {t : Ty} {kind : RealKind} {n : Nat} (hs : t.shape = .real kind n)

include hs

theorem write_reals (hdecimals : t.definition.decimals? = none) (vs : List Real64) :
    write t (.reals vs) = .ok (realsText kind vs) := by
  simp only [write, hs, hdecimals]
  rfl

theorem read_real (text : String) :
    read t text = readNumbers t n .number (fun cs => (Reading.real? cs).map .real) text := by
  rw [read, hs]

/-- Reals are stored if those that are read are in the range, and are rounded to the kind. -/
theorem read_reals {lo hi : Real64} (hrange : t.realRange? = some (lo, hi)) (hlo : lo ≠ .nan) (hhi : hi ≠ .nan)
    {parts : List String} {rs : List Real64} (hlength : parts.length = n) (hn : 1 ≤ n)
    (hplain : ∀ p ∈ parts, ',' ∉ p.toList ∧ Text.Tight p.toList)
    (hread : List.Forall₂ (fun p r => Reading.real? p.toList = some r) parts rs)
    (hfinite : ∀ r ∈ rs, r.isFinite = true) {d : Content Ty} : read t (joined parts) = .ok d ↔
      (∀ r ∈ rs, Real64.within lo hi r = true) ∧ d = .reals (rs.map kind.quantize) := by
  have hne : parts ≠ [] := by
    rintro rfl
    rw [List.length_nil] at hlength
    omega
  have hlength' : rs.length = n := hread.length_eq.symm.trans hlength
  have hliterals : List.Forall₂ (fun p l => (Reading.real? p.toList).map Literal.real = some l) parts
      (rs.map .real) := by
    rw [List.forall₂_map_right_iff]
    exact hread.imp fun p r h => congrArg (Option.map Literal.real) h
  have component {r a : Real64} (hr : r ∈ rs) : realComponent t kind (.real r) = .ok a ↔
      Real64.within lo hi r = true ∧ a = kind.quantize r := by
    rw [realComponent_eq_ok hrange hlo hhi]
    simp only [Literal.asReal?, Option.some.injEq, exists_eq_left', hfinite r hr, true_and]
  rw [read_real hs, readNumbers_joined hne hplain hliterals, stageLiteral_real hs, Except.bind_pure_eq_ok]
  constructor
  · rintro ⟨as, has, rfl⟩
    have hall := forall₂_of_componentsOf (by rwa [List.length_map]) has
    rw [List.forall₂_map_left_iff] at hall
    have hstored : List.Forall₂ (fun r a => Real64.within lo hi r = true ∧ a = kind.quantize r) rs as :=
      ((List.forall₂_and_left _ _).2 ⟨fun r hr => hr, hall⟩).imp fun r a h => (component h.1).1 h.2
    refine ⟨fun r hr => ?_, congrArg Content.reals ?_⟩
    · have hturned : List.Forall₂ (fun _ r => Real64.within lo hi r = true) as rs :=
        List.Forall₂.flip (hstored.imp fun _ _ h => h.1)
      obtain ⟨a, -, h⟩ := forall₂_exists_left hturned hr
      exact h
    · rw [eq_comm, ← List.forall₂_eq_eq_eq, List.forall₂_map_left_iff]
      exact hstored.imp fun _ _ h => h.2.symm
  · rintro ⟨hwithin, rfl⟩
    exact ⟨_, componentsOf_components hlength' hn fun r hr => (component hr).2 ⟨hwithin r hr, rfl⟩, rfl⟩

theorem read_realsText {lo hi : Real64} (hrange : t.realRange? = some (lo, hi)) {vs : List Real64}
    (hlength : vs.length = n) (hn : 1 ≤ n) (hvs : ∀ x ∈ vs, kind.Admits lo hi x) : ∃ rs,
      List.Forall₂ (fun x r => Reading.real? (realText kind none x).toList = some r ∧ kind.Near x r ∧
        (kind = .double → r = x)) vs rs ∧
      ∀ d, read t (realsText kind vs) = .ok d ↔
        (∀ r ∈ rs, Real64.within lo hi r = true) ∧ d = .reals (rs.map kind.quantize) := by
  obtain ⟨rs, hrs⟩ := exists_forall₂ fun x hx => RealKind.real?_realText (hvs x hx)
  have hfinite : ∀ r ∈ rs, r.isFinite = true := by
    intro r hr
    obtain ⟨x, -, -, hnear, -⟩ := forall₂_exists_left hrs hr
    exact hnear.isFinite
  have hbounds : lo ≠ .nan ∧ hi ≠ .nan := by
    obtain ⟨x, hx⟩ := List.exists_mem_of_length_pos (hlength ▸ hn)
    obtain ⟨hlo, hhi⟩ := Bool.and_eq_true_iff.1 (hvs x hx).ranged
    exact ⟨(Real64.le_iff.1 hlo).1, (Real64.le_iff.1 hhi).2.1⟩
  have hplain : ∀ p ∈ vs.map (realText kind none), ',' ∉ p.toList ∧ Text.Tight p.toList := by
    intro p hp
    obtain ⟨x, hx, rfl⟩ := List.mem_map.1 hp
    exact RealKind.realText_plain (hvs x hx)
  exact ⟨rs, hrs, fun d => read_reals hs hrange hbounds.1 hbounds.2 (by rwa [List.length_map]) hn hplain
    (List.forall₂_map_left_iff.2 (hrs.imp fun _ _ h => h.1)) hfinite⟩

end UiText

namespace Session

variable {s : Session} {label : String} {walk : List Access} {location : Location}

/-- The text of a real value is read as numbers near to the components. It is accepted exactly if these are in
the range, and tells the value in full exactly if they are also rounded to the components again. It is accepted
where no bounds are declared and no component is the largest number of the kind or its opposite. In double
precision it always tells the value in full. -/
theorem reals_retold (hs : s.Reachable) {v : Value} (hv : s.Reaches label walk location v) {kind : RealKind}
    {n : Nat} (hshape : v.type.shape = .real kind n) (hdecimals : v.type.definition.decimals? = none)
    {vs : List Real64} (hc : v.content = some (.reals vs)) {lo hi : Real64}
    (hrange : v.type.realRange? = some (lo, hi)) (hvs : ∀ x ∈ vs, kind.Admits lo hi x) :
    ((inspect label walk .uiText).run s).2.outcome = .ok (UiText.realsText kind vs) ∧
    ∃ rs, List.Forall₂ (fun x r => Reading.real? (UiText.realText kind none x).toList = some r ∧ kind.Near x r)
        vs rs ∧
      (((change label walk (.parseUi (UiText.realsText kind vs))).run s).2.outcome = .ok none ↔
        ∀ r ∈ rs, Real64.within lo hi r = true) ∧
      (s.Retold label walk v (UiText.realsText kind vs) ↔
        List.Forall₂ (fun x r => Real64.within lo hi r = true ∧ x.equals (kind.quantize r) = true) vs rs) ∧
      (lo = kind.largest.neg → hi = kind.largest → (∀ x ∈ vs, x.equals lo = false ∧ x.equals hi = false) →
        ((change label walk (.parseUi (UiText.realsText kind vs))).run s).2.outcome = .ok none) ∧
      (kind = .double → s.Retold label walk v (UiText.realsText kind vs)) := by
  obtain ⟨K, hK⟩ := hs.invariant
  have hconstructed : v.isConstructed = true := Option.isSome_iff_exists.2 ⟨_, hc⟩
  have hwrite : UiText.write v.type ((Content.reals vs : Content Cell).relabel HasType.type) =
      .ok (UiText.realsText kind vs) := UiText.write_reals hshape hdecimals vs
  obtain ⟨hlength, hn⟩ : vs.length = n ∧ 1 ≤ n := by
    cases ((hK.typed_of_reaches hv).content _ hc).fits with
    | reals shape length count =>
      cases hshape.symm.trans shape
      exact ⟨length, count.1⟩
  obtain ⟨rs, hrs, hread⟩ := UiText.read_realsText hshape hrange hlength hn hvs
  have haccepted : ((change label walk (.parseUi (UiText.realsText kind vs))).run s).2.outcome = .ok none ↔
      ∀ r ∈ rs, Real64.within lo hi r = true := by
    refine ⟨fun hok => ?_, fun hwithin => (parseUi_run hK hv hc ((hread _).2 ⟨hwithin, rfl⟩)).1⟩
    obtain ⟨d, hd⟩ := read_of_accepted hv hconstructed hok
    exact ((hread d).1 hd).1
  have hretold : s.Retold label walk v (UiText.realsText kind vs) ↔
      List.Forall₂ (fun x r => Real64.within lo hi r = true ∧ x.equals (kind.quantize r) = true) vs rs := by
    constructor
    · intro hretold
      have hwithin := haccepted.1 hretold.accepted
      have hequal := equalReals_iff_forall₂.1
        ((retold_iff hK hv hc hwrite ((hread _).2 ⟨hwithin, rfl⟩)).1 hretold)
      rw [List.forall₂_map_right_iff] at hequal
      exact List.Forall₂.flip ((List.forall₂_and_left _ _).2 ⟨hwithin, hequal.flip⟩)
    · intro hsame
      have hwithin : ∀ r ∈ rs, Real64.within lo hi r = true := by
        intro r hr
        obtain ⟨x, -, h, -⟩ := forall₂_exists_left hsame hr
        exact h
      refine (retold_iff hK hv hc hwrite ((hread _).2 ⟨hwithin, rfl⟩)).2 (equalReals_iff_forall₂.2 ?_)
      exact List.forall₂_map_right_iff.2 (hsame.imp fun _ _ h => h.2)
  refine ⟨outcome_uiText hv hc hwrite, rs, hrs.imp fun _ _ h => ⟨h.1, h.2.1⟩, haccepted, hretold, ?_, ?_⟩
  · rintro rfl rfl hends
    refine haccepted.2 fun r hr => ?_
    obtain ⟨x, hx, -, hnear, -⟩ := forall₂_exists_left hrs hr
    exact hnear.within_largest (hvs x hx).quantized (hends x hx).1 (hends x hx).2
  · rintro rfl
    refine hretold.2 (((List.forall₂_and_left _ _).2 ⟨hvs, hrs⟩).imp fun x r h => ?_)
    obtain ⟨hx, -, -, hself⟩ := h
    cases hself rfl
    have hnumber := Real64.ne_nan_of_isFinite hx.finite
    exact ⟨hx.ranged, (Real64.equals_iff_rank hnumber hnumber).2 rfl⟩

def gauge (x : Real64) : Session :=
  ((change "gauge" [] (.construct [⟨none, .operand (.literal (.real x))⟩])).run
    (initial.create "gauge" floatType)).1

theorem floatType_range : floatType.realRange? = some (RealKind.single.largest.neg, RealKind.single.largest) :=
  Ty.realRange?_unbounded (n := 1) rfl rfl rfl

theorem gauge_holds {x : Real64} (hx : RealKind.single.Admits RealKind.single.largest.neg RealKind.single.largest x) :
    (gauge x).Reachable ∧
      ∃ v, (gauge x).Reaches "gauge" [] [] v ∧ v.type = floatType ∧ v.content = some (.reals [x]) := by
  have hknown : initial.Knows floatType := by
    have hten : initial.space.type? 10 = some floatType := rfl
    exact .registered hten
  have hlarge : RealKind.single.largest.neg ≠ .nan ∧ RealKind.single.largest ≠ .nan := by decide +kernel
  have hstage : stageLiteral floatType (.real x) = .ok (.reals [x]) := by
    have hcomponent : realComponent floatType .single (.real x) = .ok x :=
      (realComponent_eq_ok floatType_range hlarge.1 hlarge.2).2 ⟨x, rfl, hx.finite, hx.ranged, hx.quantized.symm⟩
    rw [stageLiteral_real (n := 1) rfl, componentsOf_one hcomponent]
    rfl
  refine ⟨Reachable.make Relation.ReflTransGen.refl hknown "gauge" _ fun o ho => ?_, ?_⟩
  · obtain rfl := List.mem_singleton.1 ho
    trivial
  · have hmade : initial.Constructs "gauge" floatType [⟨none, .operand (.literal (.real x))⟩] (.reals [x]) := by
      rw [constructs_iff]
      exact (stage_lone_literal rfl _ _).2 hstage
    obtain ⟨signal, content, -, hget, hcontent⟩ := hmade
    refine ⟨_, ⟨_, hget, rfl⟩, rfl, ?_⟩
    rcases content with _ | _ | _ | _ | _ | (_ | _) | _ | _ | _ <;> cases hcontent
    rfl

def tenth : Real64 := .ofUnits false (13421773 * twoTo 1047)

/-- A tenth is read as another double than it was, and rounded back. -/
theorem reals_retold_tenth : (gauge tenth).Reachable ∧ ∃ v, (gauge tenth).Reaches "gauge" [] [] v ∧
    v.type = floatType ∧ v.content = some (.reals [tenth]) ∧
    RealKind.single.Admits RealKind.single.largest.neg RealKind.single.largest tenth ∧
    (gauge tenth).Retold "gauge" [] v "0.1" := by
  have hadmits : RealKind.single.Admits RealKind.single.largest.neg RealKind.single.largest tenth :=
    ⟨by decide +kernel, by decide +kernel, by decide +kernel⟩
  obtain ⟨hreachable, v, hv, htype, hcontent⟩ := gauge_holds hadmits
  have htext : UiText.realsText .single [tenth] = "0.1" := by decide +kernel
  have hread : Reading.real? (UiText.realText .single none tenth).toList =
      some (.ofUnits false (7205759403792794 * twoTo 1018)) := by decide +kernel
  have hshape : v.type.shape = .real .single 1 := htype ▸ rfl
  have hdecimals : v.type.definition.decimals? = none := htype ▸ rfl
  obtain ⟨-, rs, hrs, -, hretold, -, -⟩ := reals_retold hreachable hv hshape hdecimals hcontent
    (htype ▸ floatType_range) fun x hx => by
      rw [List.mem_singleton.1 hx]
      exact hadmits
  refine ⟨hreachable, v, hv, htype, hcontent, hadmits, htext ▸ hretold.2 ?_⟩
  obtain ⟨r, rest, hr, hrest, rfl⟩ := List.forall₂_cons_left_iff.1 hrs
  rw [List.forall₂_nil_left_iff.1 hrest, Option.some.inj (hr.1.symm.trans hread)]
  exact .cons (by decide +kernel) .nil

def brim : Real64 := RealKind.single.largest

def speck : Real64 := .ofUnits false (11420669 * twoTo 967)

def nextSpeck : Real64 := .ofUnits false (11420670 * twoTo 967)

/-- The text of the largest number tells a greater one, which is refused. The text of `speck` is read as the
double midway to the next number, and is rounded to that. -/
theorem reals_misread : floatType.shape = .real .single 1 ∧ floatType.definition.decimals? = none ∧
    floatType.realRange? = some (RealKind.single.largest.neg, RealKind.single.largest) ∧
    (∀ x ∈ [brim, speck], RealKind.single.Admits RealKind.single.largest.neg RealKind.single.largest x ∧
      (gauge x).Reachable ∧
      ∃ v, (gauge x).Reaches "gauge" [] [] v ∧ v.type = floatType ∧ v.content = some (.reals [x])) ∧
    ((inspect "gauge" [] .uiText).run (gauge brim)).2.outcome = .ok "340282350000000000000000000000000000000" ∧
    (∀ position, ((change "gauge" [] (.parseUi "340282350000000000000000000000000000000")).run
      (gauge brim)).2.outcome ≠ .ok position) ∧
    ((inspect "gauge" [] .uiText).run (gauge speck)).2.outcome = .ok "0.00000000000000000000000007038531" ∧
    ∃ t, (change "gauge" [] (.parseUi "0.00000000000000000000000007038531")).run (gauge speck) = t ∧
      t.2.outcome = .ok none ∧ ((inspect "gauge" [] .document).run t.1).2.outcome = .ok (.real nextSpeck) ∧
      speck.equals nextSpeck = false := by
  have hadmits : ∀ x ∈ [brim, speck],
      RealKind.single.Admits RealKind.single.largest.neg RealKind.single.largest x := by
    rw [List.forall_mem_cons, List.forall_mem_singleton]
    exact ⟨⟨by decide +kernel, by decide +kernel, by decide +kernel⟩,
      ⟨by decide +kernel, by decide +kernel, by decide +kernel⟩⟩
  have hrefused : ((change "gauge" [] (.parseUi "340282350000000000000000000000000000000")).run
      (gauge brim)).2.value? = none := by decide +kernel
  simp only [Result.outcome_eq_ok]
  refine ⟨rfl, rfl, floatType_range, fun x hx => ⟨hadmits x hx, gauge_holds (hadmits x hx)⟩, by decide +kernel,
    fun position hok => ?_, by decide +kernel, _, rfl, by decide +kernel, ?_, by decide +kernel⟩
  · cases (Result.outcome_eq_ok.1 hok).symm.trans hrefused
  · exact Document.eq_real.2 (by decide +kernel)

end Session

end TypedValues
