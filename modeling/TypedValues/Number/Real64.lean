import TypedValues.Number.Binary

/-!
Double precision reals as exact values. There is one not-a-number, zero has a sign, and comparison
follows the numbers, so the two zeros are equal and not-a-number is not equal to itself.
-/

namespace TypedValues

inductive Real64 where
  | nan
  | infinite (negative : Bool)
  | finite (negative : Bool) (units : Nat) (exact : Binary.double.Holds units)
  deriving DecidableEq

namespace Real64

/-- A magnitude that is not a double becomes infinite. -/
def ofUnits (negative : Bool) (units : Nat) : Real64 :=
  if h : Binary.double.Holds units then .finite negative units h else .infinite negative

def ofRatio (negative : Bool) (n d : Nat) : Real64 :=
  match Binary.double.round n d with
  | some units => ofUnits negative units
  | none => .infinite negative

def ofInt (z : Int) : Real64 := ofRatio (z < 0) (z.natAbs * Binary.one) 1

def zero : Real64 := ofUnits false 0

/-- The number with one sign bit, 11 exponent bits and 52 significand bits. -/
def ofBits (bits : Nat) : Real64 :=
  let negative := decide (twoTo 63 ≤ bits % twoTo 64)
  let exponent := bits / twoTo 52 % twoTo 11
  let fraction := bits % twoTo 52
  if exponent = 2047 then
    if fraction = 0 then .infinite negative else .nan
  else if exponent = 0 then ofUnits negative fraction
  else ofUnits negative ((twoTo 52 + fraction) * twoTo (exponent - 1))

def signBit (negative : Bool) : Nat := if negative then twoTo 63 else 0

/-- Not-a-number is written with a clear sign and the top fraction bit set. -/
def toBits : Real64 → Nat
  | .nan => 2047 * twoTo 52 + twoTo 51
  | .infinite negative => signBit negative + 2047 * twoTo 52
  | .finite negative units _ =>
    let shift := units.log2 - 52
    signBit negative +
      if units < twoTo 52 then units
      else (shift + 1) * twoTo 52 + (units / twoTo shift - twoTo 52)

def isFinite : Real64 → Bool
  | .finite .. => true
  | _ => false

def neg : Real64 → Real64
  | .nan => .nan
  | .infinite negative => .infinite !negative
  | .finite negative units h => .finite (!negative) units h

/-- The number of units with its sign; both zeros give 0. -/
def signed (negative : Bool) (units : Nat) : Int := if negative then -units else units

def equals : Real64 → Real64 → Bool
  | .infinite s, .infinite t => s == t
  | .finite s u _, .finite t v _ => signed s u == signed t v
  | _, _ => false

def le : Real64 → Real64 → Bool
  | .nan, _ => false
  | _, .nan => false
  | .infinite true, _ => true
  | _, .infinite false => true
  | .finite s u _, .finite t v _ => signed s u ≤ signed t v
  | _, _ => false

def lt (a b : Real64) : Bool := a.le b && !a.equals b

def within (lo hi v : Real64) : Bool := lo.le v && v.le hi

def toFormat (f : Binary.Format) : Real64 → Real64
  | .finite negative units _ =>
    match f.round units 1 with
    | some u => ofUnits negative u
    | none => .infinite negative
  | v => v

end Real64

end TypedValues
