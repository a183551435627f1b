import TypedValues.Number.Shortest
import TypedValues.Proofs.Rounding

/-! The shortest decimal of a number. What lies in the rounding interval of a number is rounded to it, and the
search for a decimal ends in the interval: the finest grid that is tried is finer than half a step. -/

namespace TypedValues

theorem tenTo_pos (k : Nat) : 0 < tenTo k := Nat.pow_pos (by decide)

theorem tenTo_add (j k : Nat) : tenTo (j + k) = tenTo j * tenTo k := Nat.pow_add 10 j k

theorem roundDiv_eq {n d k : Nat} (hd : 0 < d) (hlo : 2 * (k * d) ≤ 2 * n + d) (hhi : 2 * n ≤ 2 * (k * d) + d)
    (htie : 2 * (k * d) = 2 * n + d ∨ 2 * n = 2 * (k * d) + d → k % 2 = 0) : roundDiv n d = k := by
  have hn : n / d * d + n % d = n := Nat.div_add_mod' n d
  have hr := Nat.mod_lt n hd
  have hle : n / d ≤ k := by
    refine Nat.le_of_lt_succ (Nat.lt_of_mul_lt_mul_right (a := d) ?_)
    rw [Nat.succ_mul]
    omega
  have hge : k ≤ n / d + 1 := by
    refine Nat.le_of_lt_succ (Nat.lt_of_mul_lt_mul_right (a := d) ?_)
    rw [Nat.succ_mul, Nat.succ_mul]
    omega
  unfold roundDiv
  simp only
  rcases Nat.lt_or_eq_of_le hle with hlt | heq
  · obtain rfl : k = n / d + 1 := by omega
    rw [Nat.succ_mul (n / d) d] at hlo hhi htie
    split_ifs <;> omega
  · subst heq
    split_ifs <;> omega

namespace Binary.Format

variable {f : Format} {u v n d : Nat}

theorem holds_iff : f.Holds u ↔ u ≤ f.largest ∧ ∃ k, u = k * twoTo (f.step u) := by
  rw [Holds, ← Nat.dvd_iff_mod_eq_zero]
  exact and_congr_right fun _ =>
    ⟨fun ⟨k, hk⟩ => ⟨k, by rwa [Nat.mul_comm]⟩, fun ⟨k, hk⟩ => ⟨k, by rwa [Nat.mul_comm]⟩⟩

/-- Between one power of two and the next the numbers are equally far apart. -/
theorem step_eq {t : Nat} (hfinest : f.finest ≤ t) (hlow : t = f.finest ∨ twoTo (f.precision - 1 + t) ≤ u)
    (hhigh : u < twoTo (f.precision + t)) (hp : 0 < f.precision) : f.step u = t := by
  rcases Nat.eq_zero_or_pos u with rfl | hu
  · rcases hlow with rfl | hlow
    · simp [step]; omega
    · exact absurd hlow (Nat.not_le.2 (twoTo_pos _))
  · have hlog : u.log2 < f.precision + t := (log2_lt_iff (by omega)).2 hhigh
    unfold step
    rcases hlow with rfl | hlow
    · omega
    · have hle : f.precision - 1 + t ≤ u.log2 := (Nat.le_log2 (by omega)).2 hlow
      omega

/-- Unless the step is the finest one, the significand has its full length. -/
theorem log2_of_step (hp : 0 < f.precision) (h : f.finest < f.step u) : u.log2 = f.precision - 1 + f.step u := by
  unfold step at h ⊢
  omega

theorem holds_of_dvd {t : Nat} (hp : 0 < f.precision) (hfinest : f.finest ≤ t) (hdvd : twoTo t ∣ u)
    (hlt : u < twoTo (f.precision + t)) (hle : u ≤ f.largest) : f.Holds u := by
  refine ⟨hle, Nat.mod_eq_zero_of_dvd (Nat.dvd_trans (twoTo_dvd ?_) hdvd)⟩
  rcases Nat.eq_zero_or_pos u with rfl | hpos
  · simp only [step, Nat.log2_zero]
    omega
  · have hlog := (log2_lt_iff (by omega)).2 hlt
    unfold step
    omega

/-- Between a number and a greater one there is room for a step. -/
theorem add_step_le (hu : f.Holds u) (hv : f.Holds v) (hlt : u < v) : u + twoTo (f.step u) ≤ v := by
  obtain ⟨-, k, hk⟩ := holds_iff.1 hu
  obtain ⟨m, hm⟩ := Nat.dvd_trans (twoTo_dvd (step_mono (f := f) (Nat.le_of_lt hlt)))
    (Nat.dvd_of_mod_eq_zero hv.2)
  generalize twoTo (f.step u) = scale at *
  rw [hk, hm, Nat.mul_comm scale] at hlt
  have hle := Nat.mul_le_mul_right scale (Nat.succ_le_of_lt (Nat.lt_of_mul_lt_mul_right hlt))
  rw [Nat.succ_mul] at hle
  rwa [hk, hm, Nat.mul_comm scale]

theorem round_of_step {t k : Nat} (ht : f.step (n / d) = t) (hk : u = k * twoTo t) (hle : u ≤ f.largest)
    (hround : roundDiv n (d * twoTo t) = k) : f.round n d = some u := by
  unfold round
  simp only [ht, hround, ← hk, if_pos hle]

theorem round_le (hv : f.Holds v) (h : n ≤ v * d) : ∃ w, f.round n d = some w ∧ w ≤ v := by
  have hq : n / d ≤ v := Nat.div_le_of_le_mul (by rwa [Nat.mul_comm])
  obtain ⟨hle, k, hk⟩ := holds_iff.1 hv
  obtain ⟨j, hj⟩ := twoTo_dvd (step_mono (f := f) hq)
  have hround : roundDiv n (d * twoTo (f.step (n / d))) * twoTo (f.step (n / d)) ≤ v := by
    have hv' : v = k * j * twoTo (f.step (n / d)) := by rw [hk, hj]; ac_rfl
    conv_rhs => rw [hv']
    refine Nat.mul_le_mul_right _ (roundDiv_le (h.trans (Nat.le_of_eq ?_)))
    conv_lhs => rw [hv']
    ac_rfl
  exact ⟨_, if_pos (hround.trans hle), hround⟩

theorem le_round (hp : 0 < f.precision) (hd : 0 < d) (hv : f.Holds v) (h : v * d ≤ n) {w : Nat}
    (hw : f.round n d = some w) : v ≤ w := by
  have hq : v ≤ n / d := (Nat.le_div_iff_mul_le hd).2 h
  obtain rfl : roundDiv n (d * twoTo (f.step (n / d))) * twoTo (f.step (n / d)) = w := by
    unfold round at hw
    simp only at hw
    split_ifs at hw
    exact Option.some.inj hw
  have hpos : 0 < d * twoTo (f.step (n / d)) := Nat.mul_pos hd (twoTo_pos _)
  rcases Nat.lt_or_eq_of_le (step_mono (f := f) hq) with hlt | heq
  · -- the quotient reaches a power of two that is a number of the wider step
    have hn : n / d ≠ 0 := by
      intro hzero
      rw [hzero] at hlt hq
      rw [Nat.le_zero.1 hq] at hlt
      exact Nat.lt_irrefl _ hlt
    have hreach : twoTo (f.precision - 1) * twoTo (f.step (n / d)) ≤ n / d := by
      rw [← twoTo_add]
      refine Nat.le_trans (twoTo_le ?_) (Nat.log2_self_le hn)
      unfold step at hlt ⊢
      omega
    calc v ≤ twoTo (f.precision + f.step v) := Nat.le_of_lt (lt_twoTo_step v)
      _ ≤ twoTo (f.precision - 1 + f.step (n / d)) := twoTo_le (by omega)
      _ = twoTo (f.precision - 1) * twoTo (f.step (n / d)) := twoTo_add ..
      _ ≤ _ := Nat.mul_le_mul_right _ (le_roundDiv hpos ?_)
    calc twoTo (f.precision - 1) * (d * twoTo (f.step (n / d)))
        = twoTo (f.precision - 1) * twoTo (f.step (n / d)) * d := by ac_rfl
      _ ≤ n := (Nat.le_div_iff_mul_le hd).1 hreach
  · obtain ⟨-, k, hk⟩ := holds_iff.1 hv
    rw [heq] at hk
    conv_lhs => rw [hk]
    refine Nat.mul_le_mul_right _ (le_roundDiv hpos ?_)
    calc k * (d * twoTo (f.step (n / d))) = k * twoTo (f.step (n / d)) * d := by ac_rfl
      _ = v * d := by rw [← hk]
      _ ≤ n := h

end Binary.Format

namespace Decimal.Interval

open Binary (Format)

variable {f : Format} {u n d : Nat}

/-- Half the distance to the number below, in quarters of a unit. -/
def below (f : Format) (u : Nat) : Nat :=
  if u = twoTo u.log2 ∧ f.finest < f.step u then twoTo (f.step u) else 2 * twoTo (f.step u)

theorem below_le (f : Format) (u : Nat) : below f u ≤ 2 * twoTo (f.step u) := by
  unfold below
  split_ifs <;> omega

theorem around_eq (f : Format) (u : Nat) :
    around f u = ⟨4 * u - below f u, 4 * u + 2 * twoTo (f.step u), u / twoTo (f.step u) % 2 = 0⟩ := rfl

/-- The ends of the interval belong to even significands. -/
theorem of_contains (h : (around f u).contains n d = true) :
    4 * (u * d) ≤ n + below f u * d ∧ n ≤ 4 * (u * d) + 2 * (twoTo (f.step u) * d) ∧
    (u / twoTo (f.step u) % 2 = 1 →
      4 * (u * d) ≠ n + below f u * d ∧ n ≠ 4 * (u * d) + 2 * (twoTo (f.step u) * d)) := by
  rw [around_eq] at h
  simp only [contains, decide_eq_true_eq, Nat.sub_mul, Nat.add_mul, Nat.mul_assoc] at h
  split_ifs at h with heven <;>
    simp only [Bool.and_eq_true, decide_eq_true_eq] at h <;> omega

theorem bounds_of_contains {i : Interval} (h : i.contains n d = true) : i.lower * d ≤ n ∧ n ≤ i.upper * d := by
  unfold contains at h
  split_ifs at h <;> rw [Bool.and_eq_true, decide_eq_true_eq, decide_eq_true_eq] at h <;> omega

/-- At an end of an interval that the ends do not belong to. -/
def Tie (i : Interval) (n : Nat) : Prop := i.closed = false ∧ (n = i.lower ∨ n = i.upper)

theorem contains_or_tie {i : Interval} (hlower : i.lower ≤ n) (hupper : n ≤ i.upper) :
    i.contains n 1 = true ∨ i.Tie n := by
  cases h : i.closed <;> simp [contains, Tie, h] <;> omega

/-- Around a number, the step of the format does not change, but for what is below a power of two. -/
theorem step_div (hp : 0 < f.precision) (hu : f.Holds u) (hd : 0 < d) (hlow : u ≤ n / d ∨
    4 * (u * d) ≤ 4 * n + 2 * twoTo (f.step u) * d ∧ ¬ (u = twoTo u.log2 ∧ f.finest < f.step u))
    (hhigh : 4 * n ≤ 4 * (u * d) + 2 * (twoTo (f.step u) * d)) : f.step (n / d) = f.step u := by
  obtain ⟨-, k, hk⟩ := Format.holds_iff.1 hu
  have hlog : f.finest < f.step u → u.log2 = f.precision - 1 + f.step u := Format.log2_of_step hp
  have hlt := Format.lt_twoTo_step (f := f) u
  have hfinest : f.finest ≤ f.step u := Nat.le_max_left ..
  generalize f.step u = s at *
  have hS : 0 < twoTo s * d := Nat.mul_pos (twoTo_pos _) hd
  have hU : u * d = k * (twoTo s * d) := by rw [hk, Nat.mul_assoc]
  refine Format.step_eq hfinest ?_ ?_ hp
  · by_cases hs : s = f.finest
    · exact .inl hs
    · right
      have hpower := hlog (by omega)
      have hreach : twoTo (f.precision - 1 + s) ≤ u := by
        rw [← hpower]
        exact Nat.log2_self_le (by rintro rfl; simp at hpower; omega)
      rcases hlow with hle | ⟨hle, hne⟩
      · exact hreach.trans hle
      · -- the number is above the power of two, so the power of two is at most half a step below the quotient
        have hk' : twoTo (f.precision - 1) < k := by
          refine Nat.lt_of_mul_lt_mul_right (a := twoTo s) ?_
          rw [← twoTo_add, ← hk]
          refine Nat.lt_of_le_of_ne hreach fun heq => hne ⟨?_, by omega⟩
          rw [hpower, heq]
        rw [Nat.le_div_iff_mul_le hd, twoTo_add, Nat.mul_assoc]
        have hstep : (twoTo (f.precision - 1) + 1) * (twoTo s * d) ≤ k * (twoTo s * d) := Nat.mul_le_mul_right _ hk'
        rw [Nat.succ_mul, ← hU] at hstep
        rw [Nat.mul_assoc] at hle
        omega
  · have hk' : k + 1 ≤ twoTo f.precision := by
      rw [twoTo_add, hk] at hlt
      exact Nat.lt_of_mul_lt_mul_right hlt
    have hstep : (k + 1) * (twoTo s * d) ≤ twoTo f.precision * (twoTo s * d) := Nat.mul_le_mul_right _ hk'
    rw [Nat.succ_mul, ← hU, ← Nat.mul_assoc, ← twoTo_add] at hstep
    rw [Nat.div_lt_iff_lt_mul hd]
    omega

/-- Less than a step below a power of two, the numbers are half as far apart. -/
theorem step_div_below (hp : 1 < f.precision) (hpower : u = twoTo u.log2) (hfinest : f.finest < f.step u) (hd : 0 < d)
    (hlow : 4 * (u * d) ≤ 4 * n + twoTo (f.step u) * d) (hlt : n / d < u) : f.step (n / d) = f.step u - 1 := by
  have hlog := Format.log2_of_step (by omega) hfinest
  generalize f.step u = s at *
  rw [hlog] at hpower
  have hhalf : u = 2 * twoTo (f.precision - 1 + (s - 1)) := by
    rw [hpower, show f.precision - 1 + s = 1 + (f.precision - 1 + (s - 1)) by omega, twoTo_add]
    rfl
  have hstep : twoTo s * d ≤ twoTo (f.precision - 1 + (s - 1)) * d :=
    Nat.mul_le_mul_right _ (Format.twoTo_le (by omega))
  refine Format.step_eq (by omega) (.inr ?_) ?_ (by omega)
  · rw [Nat.le_div_iff_mul_le hd]
    rw [hhalf, Nat.mul_assoc] at hlow
    omega
  · rwa [show f.precision + (s - 1) = f.precision - 1 + s by omega, ← hpower]

/-- Below a power of two, what lies in the rounding interval is less than half a short step away from it. -/
theorem round_of_contains_below (hp : 1 < f.precision) (hu : f.Holds u) (hpower : u = twoTo u.log2)
    (hfinest : f.finest < f.step u) (hd : 0 < d) (hlow : 4 * (u * d) ≤ 4 * n + twoTo (f.step u) * d)
    (hlt : n / d < u) : f.round n d = some u := by
  obtain ⟨hle, k, hk⟩ := Format.holds_iff.1 hu
  have htwo : twoTo (f.step u) = 2 * twoTo (f.step u - 1) := by
    conv_lhs => rw [show f.step u = 1 + (f.step u - 1) by omega, twoTo_add]
    rfl
  have hn : n < u * d := by rwa [Nat.div_lt_iff_lt_mul hd] at hlt
  have hS : twoTo (f.step u) * d = 2 * (d * twoTo (f.step u - 1)) := by
    rw [htwo]
    ac_rfl
  have hU : 2 * k * (d * twoTo (f.step u - 1)) = u * d := by
    conv_rhs => rw [hk, Nat.mul_assoc, hS]
    ac_rfl
  refine Format.round_of_step (step_div_below hp hpower hfinest hd hlow hlt) (k := 2 * k) ?_ hle
    (roundDiv_eq (Nat.mul_pos hd (twoTo_pos _)) ?_ ?_ fun _ => by omega)
  · conv_lhs => rw [hk, htwo]
    ac_rfl
  · rw [hU]
    rw [hS] at hlow
    omega
  · rw [hU]
    omega

/-- What lies in the rounding interval of a number is rounded to it. -/
theorem round_of_contains (hp : 1 < f.precision) (hu : f.Holds u) (hd : 0 < d)
    (h : (around f u).contains (4 * n) d = true) : f.round n d = some u := by
  obtain ⟨hlow, hhigh, hodd⟩ := of_contains h
  obtain ⟨hle, k, hk⟩ := Format.holds_iff.1 hu
  by_cases hbelow : n / d < u ∧ u = twoTo u.log2 ∧ f.finest < f.step u
  · obtain ⟨hlt, hpower, hfinest⟩ := hbelow
    rw [below, if_pos ⟨hpower, hfinest⟩] at hlow
    exact round_of_contains_below hp hu hpower hfinest hd hlow hlt
  · have hU : u * d = k * (d * twoTo (f.step u)) := by
      conv_lhs => rw [hk]
      ac_rfl
    have hlow' : 4 * (u * d) ≤ 4 * n + 2 * twoTo (f.step u) * d :=
      hlow.trans (Nat.add_le_add_left (Nat.mul_le_mul_right _ (below_le f u)) _)
    have hcase : u ≤ n / d ∨
        4 * (u * d) ≤ 4 * n + 2 * twoTo (f.step u) * d ∧ ¬ (u = twoTo u.log2 ∧ f.finest < f.step u) := by
      by_cases hle : u ≤ n / d
      · exact .inl hle
      · exact .inr ⟨hlow', fun hpower => hbelow ⟨by omega, hpower⟩⟩
    have hstep := step_div (by omega) hu hd hcase hhigh
    rw [Nat.mul_assoc, Nat.mul_comm (twoTo _)] at hlow'
    rw [Nat.mul_comm (twoTo _)] at hhigh
    refine Format.round_of_step hstep hk hle
      (roundDiv_eq (Nat.mul_pos hd (twoTo_pos _)) (by omega) (by omega) fun htie => ?_)
    -- a quotient at an end of the interval was let in for the even significand
    by_contra hne
    have hsignificand : u / twoTo (f.step u) = k := Nat.div_eq_of_eq_mul_left (twoTo_pos _) hk
    obtain ⟨hlow, hhigh⟩ := hodd (by omega)
    rw [Nat.mul_comm (twoTo _)] at hhigh
    rcases htie with htie | htie
    · rcases hcase with hle | ⟨-, hother⟩
      · rw [Nat.le_div_iff_mul_le hd] at hle
        omega
      · rw [below, if_neg hother, Nat.mul_assoc, Nat.mul_comm (twoTo _)] at hlow
        omega
    · omega

theorem step_le (hu : f.Holds u) (hpos : 0 < u) : twoTo (f.step u) ≤ u :=
  Nat.le_of_dvd hpos (Nat.dvd_of_mod_eq_zero hu.2)

/-- What lies in the interval is more than half of the number and less than twice of it. -/
theorem scale_of_contains (hu : f.Holds u) (hpos : 0 < u) (h : (around f u).contains (4 * n) d = true) :
    u * d ≤ 2 * n ∧ n ≤ 2 * (u * d) := by
  obtain ⟨hlow, hhigh, -⟩ := of_contains h
  have hstep : twoTo (f.step u) * d ≤ u * d := Nat.mul_le_mul_right _ (step_le hu hpos)
  have hbelow : below f u * d ≤ 2 * twoTo (f.step u) * d := Nat.mul_le_mul_right _ (below_le f u)
  rw [Nat.mul_assoc] at hbelow
  omega

theorem contains_of_lt (hlow : 4 * (u * d) < n) (hhigh : n < 4 * (u * d) + 2 * (twoTo (f.step u) * d)) :
    (around f u).contains n d = true := by
  rw [around_eq]
  simp only [contains, Nat.sub_mul, Nat.add_mul, Nat.mul_assoc]
  split_ifs <;> rw [Bool.and_eq_true, decide_eq_true_eq, decide_eq_true_eq] <;> omega

/-- The ends of the interval around a number of single precision are numbers of double precision. -/
theorem holds_ends (hu : Binary.single.Holds u) (hpos : 0 < u) : ∃ lo hi, Binary.double.Holds lo ∧
    Binary.double.Holds hi ∧ (around Binary.single u).lower = 4 * lo ∧ (around Binary.single u).upper = 4 * hi := by
  have hfinest : 925 ≤ Binary.single.step u := Nat.le_max_left ..
  have hlt : u < twoTo (24 + Binary.single.step u) := Format.lt_twoTo_step (f := Binary.single) u
  have hlargest : 2 * Binary.single.largest ≤ Binary.double.largest := by decide +kernel
  have hle := hu.1
  have hstep := step_le hu hpos
  have hbelow : below Binary.single u = twoTo (Binary.single.step u) ∨
      below Binary.single u = 2 * twoTo (Binary.single.step u) := by
    unfold below
    split_ifs
    · exact .inl rfl
    · exact .inr rfl
  obtain ⟨-, k, hk⟩ := Format.holds_iff.1 hu
  rw [around_eq]
  generalize Binary.single.step u = s at *
  obtain ⟨t, rfl⟩ : ∃ t, s = 2 + t := ⟨s - 2, by omega⟩
  have hquarter : twoTo (2 + t) = 4 * twoTo t := twoTo_add 2 t
  have hroom : twoTo (24 + (2 + t)) + 2 * twoTo t ≤ twoTo (53 + t) := by
    rw [show 24 + (2 + t) = 26 + t by omega, twoTo_add, twoTo_add, ← Nat.add_mul]
    exact Nat.mul_le_mul_right _ (by decide +kernel)
  have hdvd : twoTo t ∣ u := ⟨4 * k, by rw [hk, hquarter]; ac_rfl⟩
  have holds {v : Nat} (hv : twoTo t ∣ v) (hlt : v < twoTo (53 + t)) (hle : v ≤ 2 * Binary.single.largest) :
      Binary.double.Holds v :=
    Format.holds_of_dvd (by decide) (Nat.zero_le _) hv hlt (hle.trans hlargest)
  have htwice : twoTo t ∣ 2 * twoTo t := Nat.dvd_mul_left ..
  refine ⟨u - below Binary.single u / 4, u + 2 * twoTo t, holds (Nat.dvd_sub hdvd ?_) (by omega) (by omega),
    holds (Nat.dvd_add hdvd htwice) (by omega) (by omega), by simp only; omega, by simp only; omega⟩
  rcases hbelow with h | h
  · exact ⟨1, by omega⟩
  · exact ⟨2, by omega⟩

/-- What is rounded to double precision does not leave an interval of single precision. -/
theorem round_between (hu : Binary.single.Holds u) (hpos : 0 < u) (hd : 0 < d)
    (h : (around Binary.single u).contains (4 * n) d = true) : ∃ w, Binary.double.round n d = some w ∧
      (around Binary.single u).lower ≤ 4 * w ∧ 4 * w ≤ (around Binary.single u).upper := by
  obtain ⟨lo, hi, hlo, hhi, hlower, hupper⟩ := holds_ends hu hpos
  have hbounds := bounds_of_contains h
  rw [hlower, hupper, Nat.mul_assoc, Nat.mul_assoc] at hbounds
  obtain ⟨w, hw, hle⟩ := Format.round_le (n := n) (d := d) hhi (by omega)
  have hge := Format.le_round (by decide) hd hlo (by omega) hw
  exact ⟨w, hw, by omega, by omega⟩

end Decimal.Interval

namespace Decimal

open Binary (Format)

variable {f : Format} {u : Nat} {i : Interval} {k : Int}

theorem contains_of_onGrid? {c : Nat} (h : onGrid? i u k = some c) :
    i.contains (4 * (c * (tenTo k.toNat * Binary.one))) (tenTo (-k).toNat) = true := by
  unfold onGrid? at h
  simp only at h
  split_ifs at h with hlow hhigh
  · cases h
    rw [Bool.and_eq_true] at hlow
    exact hlow.1
  · cases h
    exact hhigh

/-- A grid finer than half a step has a point in the interval. -/
theorem onGrid?_isSome (hfine : 2 * (tenTo k.toNat * Binary.one) < twoTo (f.step u) * tenTo (-k).toNat) :
    (onGrid? (Interval.around f u) u k).isSome = true := by
  unfold onGrid?
  simp only
  have hscale : 0 < tenTo k.toNat * Binary.one := Nat.mul_pos (tenTo_pos _) (twoTo_pos _)
  generalize tenTo k.toNat * Binary.one = scale at *
  generalize tenTo (-k).toNat = refine at *
  have hrest := Nat.mod_lt (u * refine) hscale
  have hsplit : u * refine / scale * scale + u * refine % scale = u * refine := Nat.div_add_mod' _ _
  have hhigh : (Interval.around f u).contains (4 * ((u * refine / scale + 1) * scale)) refine = true := by
    have hnext := Nat.add_one_mul (u * refine / scale) scale
    exact Interval.contains_of_lt (by omega) (by omega)
  split_ifs with hlow
  · rfl
  · rfl

/-- The search ends at the first grid that has a point, if one of those tried has. -/
theorem search_eq {count j : Nat} (hj : j < count) (h : (onGrid? i u (k - j)).isSome = true) :
    ∃ c k', search i u count k = ⟨c, k'⟩ ∧ onGrid? i u k' = some c := by
  induction count generalizing j k with
  | zero => exact absurd hj (Nat.not_lt_zero j)
  | succ count ih =>
    rw [search]
    split
    next c hc => exact ⟨c, k, rfl, hc⟩
    next hnone =>
      cases j with
      | zero =>
        rw [Int.ofNat_zero, Int.sub_zero, hnone] at h
        cases h
      | succ j =>
        refine ih (j := j) (Nat.lt_of_succ_lt_succ hj) ?_
        rwa [show k - 1 - (j : Int) = k - (j + 1 : Nat) by omega]

def lastExponent (log : Nat) : Int := ((log : Int) - 1073) * 30103 / 100000 + 2 - 23

theorem grid_fine : ∀ log < 2098, 2 * (tenTo (lastExponent log).toNat * Binary.one) <
    twoTo (log - 52) * tenTo (-lastExponent log).toNat := by decide +kernel

/-- The shortest decimal lies in the rounding interval. -/
theorem contains_shortest (hprecision : f.precision ≤ 53) (hlargest : f.largest ≤ Binary.double.largest)
    (hu : u ≤ f.largest) (hpos : 0 < u) :
    (Interval.around f u).contains
      (4 * ((shortest f u).coefficient * tenTo (shortest f u).exponent.toNat * Binary.one))
      (tenTo (-(shortest f u).exponent).toNat) = true := by
  have hlog : u.log2 < 2098 := by
    rw [log2_lt_iff (by omega)]
    exact (hu.trans hlargest).trans_lt (by decide +kernel)
  have hstep : u.log2 - 52 ≤ f.step u := by
    unfold Format.step
    omega
  have hfine : (onGrid? (Interval.around f u) u (ceilingExponent u - (23 : Nat))).isSome = true := by
    apply onGrid?_isSome
    refine (grid_fine u.log2 hlog).trans_le (Nat.mul_le_mul_right _ (Format.twoTo_le hstep))
  obtain ⟨c, k, hsearch, hc⟩ := search_eq (show 23 < 24 by decide) hfine
  rw [shortest, if_neg (by omega), hsearch, Nat.mul_assoc c]
  exact contains_of_onGrid? hc

end Decimal

end TypedValues
