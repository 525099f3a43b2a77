import Deontic.Binary64.Basic

/-! The text of a double: the fewest decimal digits that read back as the same double, and of those
the nearest to its exact value.  Exponents from -4 to 15 are written positionally, with at least one
digit after the point; all others with a mark, a sign and at least two digits. -/

namespace Deontic.Binary64

/-- The exponent of the leading decimal digit of `num / den`, for positive `num` and `den`. -/
def leadingDecimal (num den : Nat) : Int :=
  if den ≤ num then (Nat.toDigits 10 (num / den)).length - 1
  else
    let digits := (Nat.toDigits 10 (den / num)).length
    if den = num * Nat.pow 10 (digits - 1) then -((digits : Int) - 1) else -(digits : Int)

/-- The multiples `d` and `d + 1` of `10 ^ scale` around `num / den` that lie between
`low / den` and `high / den`, the nearer one first and of two equally near the even one. -/
def gridPoint (num den low high : Nat) (closed : Bool) (scale : Int) : Option Nat :=
  let up := Nat.pow 10 scale.toNat
  let down := Nat.pow 10 (-scale).toNat
  let inside (d : Nat) : Bool :=
    let point := d * up * den
    if closed then low * down ≤ point && point ≤ high * down
    else low * down < point && point < high * down
  let below := num * down / (den * up)
  let nearest := roundHalfEven (num * down) (den * up)
  let other := if nearest = below then below + 1 else below
  if inside nearest then some nearest else if inside other then some other else none

/-- Tries grids of growing fineness from `scale` downwards. -/
def searchGrids (num den low high : Nat) (closed : Bool) : Nat → Int → Nat × Int
  | 0, scale =>
    (roundHalfEven (num * Nat.pow 10 (-scale).toNat) (den * Nat.pow 10 scale.toNat), scale)
  | tries + 1, scale =>
    match gridPoint num den low high closed scale with
    | some digits => (digits, scale)
    | none => searchGrids num den low high closed tries (scale - 1)

/-- Digits and scale of the shortest decimal that rounds to `mantissa * 2 ^ exponent`.  The numbers
that round to it reach half way to its neighbours; the lower neighbour of a power of
two is nearer. -/
def shortestDecimal (mantissa : Nat) (exponent : Int) : Nat × Int :=
  let den := 4 <<< (-exponent).toNat
  let unit := 1 <<< exponent.toNat
  let num := 4 * mantissa * unit
  let high := num + 2 * unit
  let low := if mantissa = normal ∧ exponent ≠ minExponent then num - unit else num - 2 * unit
  searchGrids num den low high (mantissa % 2 = 0) 16 (leadingDecimal num den)

def dropTrailingZeros (digits : List Char) : List Char :=
  (digits.reverse.dropWhile (· == '0')).reverse

/-- Writes the digits `0.d₁d₂… * 10 ^ point`. -/
def placePoint (digits : List Char) (point : Int) : List Char :=
  if -4 < point ∧ point ≤ 16 then
    if point ≤ 0 then
      '0' :: '.' :: (List.replicate (-point).toNat '0' ++ digits)
    else
      let whole := digits.take point.toNat
      let fraction := digits.drop point.toNat
      whole ++ List.replicate (point.toNat - whole.length) '0' ++
        '.' :: (if fraction.isEmpty then ['0'] else fraction)
  else
    let fraction := digits.drop 1
    let power := point - 1
    let places := Nat.toDigits 10 power.natAbs
    digits.take 1 ++ (if fraction.isEmpty then [] else '.' :: fraction) ++
      'e' :: (if power < 0 then '-' else '+') :: (List.replicate (2 - places.length) '0' ++ places)

def toText : Binary64 → String
  | .nan => "nan"
  | .infinite negative => if negative then "-inf" else "inf"
  | .finite negative mantissa exponent =>
    let body :=
      if mantissa = 0 then ['0', '.', '0']
      else
        let (digits, scale) := shortestDecimal mantissa exponent
        let written := Nat.toDigits 10 digits
        placePoint (dropTrailingZeros written) (written.length + scale)
    String.ofList (if negative then '-' :: body else body)

end Deontic.Binary64
