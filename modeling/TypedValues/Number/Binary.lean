/-!
Rounding to binary formats. Magnitudes are exact: a natural number of units, one unit being the
smallest positive double, 2 to the power -1074. Every finite number of either format is a whole
number of units. Powers of two and of ten are written through `Nat.pow`, so that they do not depend
on the instance of the power operator in scope.
-/

namespace TypedValues

def twoTo (k : Nat) : Nat := Nat.pow 2 k

def tenTo (k : Nat) : Nat := Nat.pow 10 k

theorem twoTo_pos (k : Nat) : 0 < twoTo k := Nat.two_pow_pos k

theorem twoTo_add (j k : Nat) : twoTo (j + k) = twoTo j * twoTo k := Nat.pow_add 2 j k

theorem twoTo_dvd {j k : Nat} (h : j ≤ k) : twoTo j ∣ twoTo k := Nat.pow_dvd_pow 2 h

theorem log2_twoTo (k : Nat) : (twoTo k).log2 = k := Nat.log2_two_pow

theorem log2_lt_iff {n k : Nat} (h : n ≠ 0) : n.log2 < k ↔ n < twoTo k := Nat.log2_lt h

/-- The integer nearest to `n / d`; a half goes to the even neighbour. -/
def roundDiv (n d : Nat) : Nat :=
  let q := n / d
  let twice := 2 * (n % d)
  if twice < d then q else if d < twice then q + 1 else if q % 2 = 0 then q else q + 1

/-- Rounding does not pass an integer that bounds the quotient. -/
theorem roundDiv_le {n d k : Nat} (h : n ≤ k * d) : roundDiv n d ≤ k := by
  rcases Nat.eq_zero_or_pos d with rfl | hd
  · obtain rfl : n = 0 := by omega
    simp [roundDiv]
  · have hq : n / d ≤ k := Nat.div_le_of_le_mul (by rwa [Nat.mul_comm])
    have hm := Nat.div_add_mod n d
    unfold roundDiv
    rcases Nat.lt_or_eq_of_le hq with hlt | heq
    · simp only
      split
      · omega
      · split
        · omega
        · split <;> omega
    · have hr : n % d = 0 := by
        rw [heq, Nat.mul_comm] at hm; omega
      simp [hr, heq, hd]

namespace Binary

def one : Nat := twoTo 1074

structure Format where
  /-- Bits of a significand. -/
  precision : Nat
  /-- Neighbouring numbers are at least `2 ^ finest` units apart. -/
  finest : Nat
  /-- The largest finite magnitude. -/
  largest : Nat
  deriving DecidableEq

def double : Format := ⟨53, 0, (twoTo 53 - 1) * twoTo 2045⟩

def single : Format := ⟨24, 925, (twoTo 24 - 1) * twoTo 1178⟩

namespace Format

/-- Around a magnitude of `u` units, numbers of the format are `2 ^ step u` units apart. -/
def step (f : Format) (u : Nat) : Nat := max f.finest (u.log2 + 1 - f.precision)

/-- The magnitude `u` is one of the format's numbers. -/
def Holds (f : Format) (u : Nat) : Prop := u ≤ f.largest ∧ u % twoTo (f.step u) = 0

instance (f : Format) (u : Nat) : Decidable (f.Holds u) := inferInstanceAs (Decidable (_ ∧ _))

/-- The format's number nearest to `n / d` units, a half going to the even significand. There is
none when the result would exceed the largest. -/
def round (f : Format) (n d : Nat) : Option Nat :=
  let s := f.step (n / d)
  let u := roundDiv n (d * twoTo s) * twoTo s
  if u ≤ f.largest then some u else none

theorem lt_twoTo_step {f : Format} (u : Nat) : u < twoTo (f.precision + f.step u) := by
  rcases Nat.eq_zero_or_pos u with rfl | h
  · exact twoTo_pos _
  · rw [← log2_lt_iff (by omega)]
    unfold step; omega

theorem holds_of_round {f : Format} {n d u : Nat} (hp : 0 < f.precision) (hd : 0 < d)
    (h : f.round n d = some u) : f.Holds u := by
  unfold round at h
  simp only at h
  split at h
  case isFalse => simp at h
  case isTrue hle =>
    obtain rfl := Option.some.inj h
    refine ⟨hle, Nat.mod_eq_zero_of_dvd ?_⟩
    have hsig : roundDiv n (d * twoTo (f.step (n / d))) ≤ twoTo f.precision := by
      apply roundDiv_le
      have hlt := lt_twoTo_step (f := f) (n / d)
      rw [Nat.div_lt_iff_lt_mul hd, twoTo_add] at hlt
      calc n ≤ _ := Nat.le_of_lt hlt
        _ = _ := by ac_rfl
    have hfine : f.finest ≤ f.step (n / d) := Nat.le_max_left ..
    generalize f.step (n / d) = s at hsig hfine ⊢
    generalize roundDiv n (d * twoTo s) = q at hsig ⊢
    rcases Nat.lt_or_eq_of_le hsig with hlt | rfl
    · -- the significand fits, so the step is no longer than `s`
      have hu : f.step (q * twoTo s) ≤ s := by
        rcases Nat.eq_zero_or_pos q with rfl | hq
        · simp [step]; omega
        · have : (q * twoTo s).log2 < f.precision + s := by
            rw [log2_lt_iff (Nat.mul_ne_zero (by omega) (Nat.ne_of_gt (twoTo_pos s))), twoTo_add]
            exact Nat.mul_lt_mul_of_pos_right hlt (twoTo_pos s)
          unfold step; omega
      exact Nat.dvd_trans (twoTo_dvd hu) (Nat.dvd_mul_left ..)
    · -- the next power of two, one step up
      rw [← twoTo_add]
      apply twoTo_dvd
      unfold step
      rw [log2_twoTo]; omega

end Format

end Binary

end TypedValues
