import TypedValues.Number.Real64
import TypedValues.Number.Shortest

/-!
How reals are written: positionally with the fewest digits, with a fixed number of places, or in the
inspection form, which marks whole numbers and turns to an exponent for large and small ones.
-/

namespace TypedValues

def digitsOf (n : Nat) : List Char := Nat.toDigits 10 n

/-- Writes a point before the last `places` digits, with at least one digit in front of it. -/
def withPoint (ds : List Char) (places : Nat) : List Char :=
  let padded := List.replicate (places + 1 - ds.length) '0' ++ ds
  let whole := padded.take (padded.length - places)
  if places = 0 then whole else whole ++ '.' :: padded.drop (padded.length - places)

namespace Decimal

def positional (d : Decimal) : List Char :=
  withPoint (digitsOf (d.coefficient * tenTo d.exponent.toNat)) (-d.exponent).toNat

def scientific (d : Decimal) : List Char :=
  match digitsOf d.coefficient with
  | [] => []
  | lead :: rest =>
    let fraction := if rest.isEmpty then [] else '.' :: rest
    lead :: fraction ++ 'e' :: (toString (d.exponent + rest.length)).toList

end Decimal

namespace Real64

def signText (negative : Bool) (body : List Char) : String :=
  String.ofList (if negative then '-' :: body else body)

def textWith (magnitude : Nat → List Char) : Real64 → String
  | .nan => "NaN"
  | .infinite negative => signText negative ['i', 'n', 'f']
  | .finite negative units _ => signText negative (magnitude units)

/-- The fewest digits that read back at the precision of the format. -/
def textAt (f : Binary.Format) (v : Real64) : String :=
  v.textWith fun u => (Decimal.shortest f u).positional

def text (v : Real64) : String := v.textAt Binary.double

/-- Rounded to `places` decimals; a half of the exact value goes to the even neighbour. -/
def fixed (places : Nat) (v : Real64) : String :=
  v.textWith fun u => withPoint (digitsOf (roundDiv (u * tenTo places) Binary.one)) places

/-- Positional from `1e-4` up to, and without, `1e16`. -/
def inspectMagnitude (u : Nat) : List Char :=
  let d := Decimal.shortest Binary.double u
  let positional := u = 0 ∨
    (Binary.double.round Binary.one 10000).getD 0 ≤ u ∧ u < tenTo 16 * Binary.one
  if ¬positional then d.scientific
  else if 0 ≤ d.exponent then d.positional ++ ['.', '0']
  else d.positional

def inspect (v : Real64) : String := v.textWith inspectMagnitude

end Real64

end TypedValues
