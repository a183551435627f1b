import TypedValues.Number.Real64

/-!
Reading numbers. Integers are a sign and decimal digits within bounds. Reals have a sign, digits with
a point anywhere among them and an exponent, or are the words for infinity and not-a-number in any
case.
-/

namespace TypedValues.Reading

def digits? (cs : List Char) : Option Nat :=
  if !cs.isEmpty && cs.all Char.isDigit then
    some (cs.foldl (fun n c => 10 * n + (c.toNat - '0'.toNat)) 0)
  else none

def signed : List Char → Bool × List Char
  | '-' :: rest => (true, rest)
  | '+' :: rest => (false, rest)
  | cs => (false, cs)

/-- An integer of at most 128 bits. -/
def integer? (cs : List Char) : Option Int :=
  let (negative, rest) := signed cs
  match digits? rest with
  | none => none
  | some n =>
    let z : Int := if negative then -n else n
    if -twoTo 127 ≤ z ∧ z < twoTo 127 then some z else none

/-- A position: no minus sign, below `2 ^ 64`. -/
def position? (cs : List Char) : Option Nat :=
  let rest := match cs with
    | '+' :: rest => rest
    | cs => cs
  match digits? rest with
  | none => none
  | some n => if n < twoTo 64 then some n else none

/-- The real nearest to `n * 10 ^ e`. Beyond 400 places on either side it is infinite or zero. -/
def scaled (negative : Bool) (n : Nat) (e : Int) : Real64 :=
  let place := e + (Nat.toDigits 10 n).length
  if n = 0 ∨ place < -400 then .ofUnits negative 0
  else if 400 < place then .infinite negative
  else .ofRatio negative (n * tenTo e.toNat * Binary.one) (tenTo (-e).toNat)

def exponent? : List Char → Option Int
  | [] => some 0
  | c :: rest =>
    if c = 'e' ∨ c = 'E' then
      let (negative, ds) := signed rest
      (digits? ds).map fun n => if negative then -n else n
    else none

/-- A magnitude in decimal notation, with at least one digit before the exponent. -/
def decimal? (negative : Bool) (cs : List Char) : Option Real64 :=
  let whole := cs.takeWhile Char.isDigit
  let afterWhole := cs.dropWhile Char.isDigit
  let (fraction, tail) := match afterWhole with
    | '.' :: rest => (rest.takeWhile Char.isDigit, rest.dropWhile Char.isDigit)
    | rest => ([], rest)
  match digits? (whole ++ fraction), exponent? tail with
  | some n, some e => some (scaled negative n (e - fraction.length))
  | _, _ => none

def real? (cs : List Char) : Option Real64 :=
  let (negative, rest) := signed cs
  let word := rest.map Char.toLower
  if word = ['n', 'a', 'n'] then some .nan
  else if word = ['i', 'n', 'f'] ∨ word = ['i', 'n', 'f', 'i', 'n', 'i', 't', 'y'] then
    some (.infinite negative)
  else decimal? negative rest

end TypedValues.Reading
