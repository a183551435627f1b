import TypedValues.Number.Binary

/-!
The shortest decimal that reads back to a binary number: a point of the coarsest decimal grid that
has a point in the number's rounding interval, the nearer one when there are two.
-/

namespace TypedValues

structure Decimal where
  coefficient : Nat
  exponent : Int
  deriving DecidableEq

namespace Decimal

/-- The interval of reals that round to `u`, its ends in quarters of a unit. -/
structure Interval where
  lower : Nat
  upper : Nat
  closed : Bool

/-- Half a step to either side. Below a power of two the step is half as long, unless it is the finest
already. The ends belong to the interval when the significand is even. -/
def Interval.around (f : Binary.Format) (u : Nat) : Interval :=
  let s := f.step u
  let below := if u = twoTo u.log2 ∧ f.finest < s then twoTo s else 2 * twoTo s
  ⟨4 * u - below, 4 * u + 2 * twoTo s, u / twoTo s % 2 = 0⟩

def Interval.contains (i : Interval) (n d : Nat) : Bool :=
  if i.closed then i.lower * d ≤ n && n ≤ i.upper * d else i.lower * d < n && n < i.upper * d

/-- The point of the grid of step `10 ^ k` that lies in the interval around `u`, the nearer of two,
and of two equally near the larger. -/
def onGrid? (i : Interval) (u : Nat) (k : Int) : Option Nat :=
  let scale := tenTo k.toNat * Binary.one
  let refine := tenTo (-k).toNat
  let below := u * refine / scale
  let rest := u * refine % scale
  let lowHit := i.contains (4 * (below * scale)) refine
  let highHit := i.contains (4 * ((below + 1) * scale)) refine
  if lowHit && (!highHit || 2 * rest < scale) then some below
  else if highHit then some (below + 1) else none

def search (i : Interval) (u : Nat) : Nat → Int → Decimal
  | 0, k => ⟨u * tenTo (-k).toNat / (tenTo k.toNat * Binary.one), k⟩
  | count + 1, k =>
    match onGrid? i u k with
    | some c => ⟨c, k⟩
    | none => search i u count (k - 1)

/-- An exponent above that of the leading digit: 0.30103 exceeds the logarithm of two. -/
def ceilingExponent (u : Nat) : Int := ((u.log2 : Int) - 1073) * 30103 / 100000 + 2

/-- The shortest decimal for a magnitude. Seventeen digits always suffice, and the search starts at
most four grids too high. -/
def shortest (f : Binary.Format) (u : Nat) : Decimal :=
  if u = 0 then ⟨0, 0⟩ else search (Interval.around f u) u 24 (ceilingExponent u)

end Decimal

end TypedValues
