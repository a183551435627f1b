import TypedValues.Proofs.Typed

/-! Rounding keeps the order of numbers. Magnitudes come first: what is rounded at a wider step is at
least the power of two that bounds what is rounded at a narrower one. -/

namespace TypedValues

theorem le_roundDiv {n d k : Nat} (hd : 0 < d) (h : k * d ≤ n) : k ≤ roundDiv n d := by
  have hq : k ≤ n / d := (Nat.le_div_iff_mul_le hd).2 h
  unfold roundDiv
  simp only
  split
  · exact hq
  · split
    · omega
    · split <;> omega

theorem roundDiv_mono {m n d : Nat} (hd : 0 < d) (h : m ≤ n) : roundDiv m d ≤ roundDiv n d := by
  rcases Nat.lt_or_eq_of_le (Nat.div_le_div_right (c := d) h) with hlt | heq
  · -- an integer lies between the quotients
    have hm : m ≤ (m / d + 1) * d := by
      rw [Nat.mul_comm]
      exact Nat.le_of_lt (Nat.lt_mul_div_succ m hd)
    calc roundDiv m d ≤ m / d + 1 := roundDiv_le hm
      _ ≤ n / d := hlt
      _ ≤ roundDiv n d := le_roundDiv hd (Nat.div_mul_le_self n d)
  · have hmod : m % d ≤ n % d := by
      have hm := Nat.div_add_mod m d
      have hn := Nat.div_add_mod n d
      rw [heq] at hm
      omega
    unfold roundDiv
    simp only [heq]
    split_ifs <;> omega

namespace Binary.Format

variable {f : Format}

theorem step_mono {u v : Nat} (h : u ≤ v) : f.step u ≤ f.step v := by
  have hlog : u.log2 ≤ v.log2 := by
    rcases Nat.eq_zero_or_pos u with rfl | hu
    · exact Nat.zero_le _
    · exact (Nat.le_log2 (by omega)).2 ((Nat.log2_self_le (by omega)).trans h)
  unfold step
  omega

def nearest (f : Format) (u : Nat) : Nat := roundDiv u (twoTo (f.step u)) * twoTo (f.step u)

theorem round_eq (u : Nat) :
    f.round u 1 = if f.nearest u ≤ f.largest then some (f.nearest u) else none := by
  simp only [round, nearest, Nat.div_one, Nat.one_mul]
  rfl

theorem nearest_of_holds {u : Nat} (h : f.Holds u) : f.nearest u = u := by
  have hround := round_of_holds h
  rw [round_eq] at hround
  split at hround
  · exact Option.some.inj hround
  · cases hround

/-- What is rounded does not pass the power of two that bounds it. -/
theorem nearest_le {u : Nat} : f.nearest u ≤ twoTo (f.precision + f.step u) := by
  rw [twoTo_add]
  apply Nat.mul_le_mul_right
  apply roundDiv_le
  rw [← twoTo_add]
  exact Nat.le_of_lt (lt_twoTo_step u)

theorem twoTo_le {j k : Nat} (h : j ≤ k) : twoTo j ≤ twoTo k := Nat.pow_le_pow_right (by decide) h

theorem nearest_mono (hp : 0 < f.precision) {u v : Nat} (h : u ≤ v) : f.nearest u ≤ f.nearest v := by
  rcases Nat.lt_or_eq_of_le (step_mono (f := f) h) with hlt | heq
  · -- the greater one has a significand of full length, so it reaches a power of two
    have hstep : f.step v = v.log2 + 1 - f.precision := by
      unfold step at hlt ⊢
      omega
    have hv : v ≠ 0 := by
      rintro rfl
      rw [Nat.le_zero.1 h] at hlt
      exact Nat.lt_irrefl _ hlt
    have hreach : twoTo (f.precision - 1) * twoTo (f.step v) ≤ v := by
      rw [← twoTo_add]
      refine Nat.le_trans (twoTo_le ?_) (Nat.log2_self_le hv)
      omega
    calc f.nearest u ≤ twoTo (f.precision + f.step u) := nearest_le
      _ ≤ twoTo (f.precision - 1 + f.step v) := twoTo_le (by omega)
      _ = twoTo (f.precision - 1) * twoTo (f.step v) := twoTo_add ..
      _ ≤ f.nearest v := Nat.mul_le_mul_right _ (le_roundDiv (twoTo_pos _) hreach)
  · unfold nearest
    rw [heq]
    exact Nat.mul_le_mul_right _ (roundDiv_mono (twoTo_pos _) h)

theorem round_of_le (hp : 0 < f.precision) {u v : Nat} (hv : f.Holds v) (h : u ≤ v) :
    f.round u 1 = some (f.nearest u) := by
  have hle : f.nearest u ≤ v := nearest_of_holds hv ▸ nearest_mono hp h
  rw [round_eq, if_pos (hle.trans hv.1)]

end Binary.Format

/-- The numbers of single precision are numbers of double precision. -/
theorem Binary.holds_double {u : Nat} (h : single.Holds u) : double.Holds u := by
  have hlargest : single.largest ≤ double.largest := by decide +kernel
  refine ⟨h.1.trans hlargest, Nat.mod_eq_zero_of_dvd ?_⟩
  refine Nat.dvd_trans (twoTo_dvd ?_) (Nat.dvd_of_mod_eq_zero h.2)
  simp only [Format.step, single, double]
  omega

namespace Real64

/-- The magnitude of the infinities in the order of the numbers. -/
def beyond : Nat := Binary.double.largest + 1

theorem lt_beyond {u : Nat} (h : Binary.double.Holds u) : u < beyond := by
  have hle := h.1
  unfold beyond
  omega

theorem beyond_pos : 0 < beyond := lt_beyond Binary.double.holds_zero

def rank : Real64 → Int
  | .nan => 0
  | .infinite s => signed s beyond
  | .finite s u _ => signed s u

theorem le_iff {a b : Real64} : a.le b = true ↔ a ≠ .nan ∧ b ≠ .nan ∧ a.rank ≤ b.rank := by
  have hbound {u : Nat} (s : Bool) (hu : Binary.double.Holds u) :
      -(beyond : Int) < signed s u ∧ signed s u < beyond := by
    have hlt := lt_beyond hu
    cases s <;> simp only [signed] <;> omega
  rcases a with _ | s | ⟨s, u, hu⟩ <;> rcases b with _ | t | ⟨t, v, hv⟩
  · simp [le]
  · simp [le]
  · simp [le]
  · cases s <;> simp [le]
  · have hpos := beyond_pos
    cases s <;> cases t <;> simp [le, rank, signed]
    omega
  · have hv := hbound t hv
    cases s <;> simp [le, rank, signed] at hv ⊢ <;> omega
  · simp [le]
  · have hu := hbound s hu
    cases t <;> simp [le, rank, signed] at hu ⊢ <;> omega
  · simp [le, rank]

theorem le_trans {a b c : Real64} (hab : a.le b = true) (hbc : b.le c = true) : a.le c = true := by
  rw [le_iff] at hab hbc ⊢
  exact ⟨hab.1, hbc.2.1, hab.2.2.trans hbc.2.2⟩

theorem le_refl {a : Real64} (h : a ≠ .nan) : a.le a = true := le_iff.2 ⟨h, h, Int.le_refl _⟩

theorem ne_nan_of_isFinite {a : Real64} (h : a.isFinite = true) : a ≠ .nan := by
  rintro rfl
  cases h

theorem isFinite_iff {a : Real64} :
    a.isFinite = true ↔ a ≠ .nan ∧ a.rank.natAbs < beyond := by
  rcases a with _ | s | ⟨s, u, hu⟩
  · simp [isFinite]
  · cases s <;> simp [isFinite, rank, signed]
  · have hlt := lt_beyond hu
    cases s <;> simp [isFinite, rank, signed, hlt]

/-- What lies between numbers is a number. -/
theorem isFinite_of_between {a b v : Real64} (ha : a.isFinite = true) (hb : b.isFinite = true)
    (hav : a.le v = true) (hvb : v.le b = true) : v.isFinite = true := by
  rw [isFinite_iff] at ha hb ⊢
  rw [le_iff] at hav hvb
  exact ⟨hav.2.1, by omega⟩

theorem equals_iff_rank {a b : Real64} (ha : a ≠ .nan) (hb : b ≠ .nan) :
    a.equals b = true ↔ a.rank = b.rank := by
  rcases a with _ | s | ⟨s, u, hu⟩ <;> rcases b with _ | t | ⟨t, v, hv⟩
  · exact absurd rfl ha
  · exact absurd rfl ha
  · exact absurd rfl ha
  · exact absurd rfl hb
  · have hpos := beyond_pos
    cases s <;> cases t <;> simp [equals, rank, signed] <;> omega
  · have hlt := lt_beyond hv
    cases s <;> cases t <;> simp [equals, rank, signed] <;> omega
  · exact absurd rfl hb
  · have hlt := lt_beyond hu
    cases s <;> cases t <;> simp [equals, rank, signed] <;> omega
  · simp [equals, rank]

theorem isFinite_ofUnits {u : Nat} (h : Binary.double.Holds u) (s : Bool) :
    (ofUnits s u).isFinite = true := by
  simp only [ofUnits, h, dite_true, isFinite]

theorem isFinite_ofRatio {n d u : Nat} (hd : 0 < d) (h : Binary.double.round n d = some u) (s : Bool) :
    (ofRatio s n d).isFinite = true := by
  have hu : Binary.double.Holds u := Binary.Format.holds_of_round (by decide) hd h
  unfold ofRatio
  split
  next w hw =>
    obtain rfl := Option.some.inj (h.symm.trans hw)
    exact isFinite_ofUnits hu s
  next hnone => rw [h] at hnone; cases hnone

theorem isFinite_ofInt {z : Int} (h : z.natAbs ≤ twoTo 127) : (ofInt z).isFinite = true := by
  have hpower : Binary.double.Holds (twoTo (127 + 1074)) := by decide +kernel
  refine isFinite_ofRatio Nat.one_pos (Binary.Format.round_of_le (by decide) hpower ?_) _
  rw [twoTo_add, Binary.one]
  exact Nat.mul_le_mul_right _ h

theorem lt_eq_false_iff {a b : Real64} (ha : a ≠ .nan) (hb : b ≠ .nan) :
    a.lt b = false ↔ b.le a = true := by
  rw [lt, Bool.and_eq_false_iff, Bool.not_eq_false', equals_iff_rank ha hb, ← Bool.not_eq_true, le_iff,
    le_iff]
  simp only [ne_eq, ha, hb, not_false_eq_true, true_and]
  omega

/-- The rank of a rounded magnitude. -/
def reach (f : Binary.Format) (u : Nat) : Nat :=
  if f.nearest u ≤ f.largest then f.nearest u else beyond

variable {f : Binary.Format}

theorem rank_toFormat (hp : 0 < f.precision) (hf : ∀ w, f.Holds w → Binary.double.Holds w) (s : Bool)
    (u : Nat) (hu : Binary.double.Holds u) :
    ((finite s u hu).toFormat f).rank = signed s (reach f u) := by
  rw [toFormat, Binary.Format.round_eq, reach]
  by_cases hle : f.nearest u ≤ f.largest
  · have hholds : f.Holds (f.nearest u) :=
      Binary.Format.holds_of_round hp Nat.one_pos (by rw [Binary.Format.round_eq, if_pos hle])
    simp only [hle, if_true, ofUnits, hf _ hholds, dite_true, rank]
  · simp only [hle, if_false, rank]

theorem reach_mono (hp : 0 < f.precision) (hf : f.largest ≤ Binary.double.largest) {u v : Nat} (h : u ≤ v) :
    reach f u ≤ reach f v := by
  have hnearest := Binary.Format.nearest_mono hp h
  unfold reach beyond
  split_ifs <;> omega

theorem reach_le (hf : f.largest ≤ Binary.double.largest) (u : Nat) :
    reach f u ≤ beyond := by
  unfold reach beyond
  split_ifs <;> omega

theorem reach_zero : reach f 0 = 0 := by
  rw [reach, Binary.Format.nearest_of_holds f.holds_zero, if_pos (Nat.zero_le _)]

theorem signed_reach_mono (hp : 0 < f.precision) (hf : f.largest ≤ Binary.double.largest) {s t : Bool}
    {u v : Nat} (h : signed s u ≤ signed t v) : signed s (reach f u) ≤ signed t (reach f v) := by
  cases s <;> cases t <;> simp only [signed, Bool.false_eq_true, if_false, if_true] at h ⊢
  · have hreach := reach_mono hp hf (show u ≤ v by omega)
    omega
  · -- only a zero is both a positive and at most a negative number
    obtain ⟨rfl, rfl⟩ : u = 0 ∧ v = 0 := by omega
    simp [reach_zero]
  · omega
  · have hreach := reach_mono hp hf (show v ≤ u by omega)
    omega

/-- Rounding does not turn numbers around. -/
theorem toFormat_mono (hp : 0 < f.precision) (hf : ∀ w, f.Holds w → Binary.double.Holds w)
    (hlargest : f.largest ≤ Binary.double.largest) {a b : Real64} (h : a.le b = true) :
    (a.toFormat f).le (b.toFormat f) = true := by
  obtain ⟨ha, hb, hrank⟩ := le_iff.1 h
  refine le_iff.2 ⟨toFormat_ne_nan ha, toFormat_ne_nan hb, ?_⟩
  rcases a with _ | s | ⟨s, u, hu⟩ <;> rcases b with _ | t | ⟨t, v, hv⟩
  · exact absurd rfl ha
  · exact absurd rfl ha
  · exact absurd rfl ha
  · exact absurd rfl hb
  · exact hrank
  · rw [rank_toFormat hp hf]
    have hlt := lt_beyond hv
    have hreach := reach_le hlargest v
    cases s <;> cases t <;> simp only [toFormat, rank, signed] at hrank ⊢ <;> omega
  · exact absurd rfl hb
  · rw [rank_toFormat hp hf]
    have hlt := lt_beyond hu
    have hreach := reach_le hlargest u
    cases s <;> cases t <;> simp only [toFormat, rank, signed] at hrank ⊢ <;> omega
  · rw [rank_toFormat hp hf, rank_toFormat hp hf]
    exact signed_reach_mono hp hlargest hrank

end Real64

theorem RealKind.quantize_mono (k : RealKind) {a b : Real64} (h : a.le b = true) :
    (k.quantize a).le (k.quantize b) = true := by
  cases k with
  | single =>
    have hlargest : Binary.single.largest ≤ Binary.double.largest := by decide +kernel
    exact Real64.toFormat_mono (by decide) (fun _ => Binary.holds_double) hlargest h
  | double => exact h

end TypedValues
