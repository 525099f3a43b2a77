import Deontic.Binary64.Basic

/-! A double written with a fixed number of digits after the point, its exact value rounded to the
nearest such number and halfway to the even one.  The sign of a negative number stays when it rounds
to zero. -/

namespace Deontic.Binary64

/-- `digits` with a point before the last `places` of them, and a zero before a bare point. -/
def splitPlaces (places digits : Nat) : List Char :=
  let written := Nat.toDigits 10 digits
  let padded := List.replicate (places + 1 - written.length) '0' ++ written
  let whole := padded.length - places
  padded.take whole ++ '.' :: padded.drop whole

/-- The text of a double with `places` digits after the point. -/
def toFixed (places : Nat) : Binary64 → String
  | .nan => "nan"
  | .infinite negative => if negative then "-inf" else "inf"
  | .finite negative mantissa exponent =>
    let digits := roundHalfEven ((mantissa <<< exponent.toNat) * Nat.pow 10 places)
      (1 <<< (-exponent).toNat)
    let body := splitPlaces places digits
    String.ofList (if negative then '-' :: body else body)

end Deontic.Binary64
