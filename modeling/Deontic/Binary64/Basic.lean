/-! Double-precision numbers as exact values: a sign, a mantissa and a power of two, or one of the
values that are not finite.  `ofRatio` and `ofDecimal` round to the nearest double and, halfway, to
the one with the even mantissa.  Everything that reads or writes the digits of a double works on
this type, in exact arithmetic; only sums, quotients, logarithms and exponentials use the machine's
doubles. -/

namespace Deontic

/-- A double: `mantissa * 2 ^ exponent` with a sign, an infinity, or not a number. -/
inductive Binary64 where
  | finite (negative : Bool) (mantissa : Nat) (exponent : Int)
  | infinite (negative : Bool)
  | nan
  deriving DecidableEq, Inhabited

/-- `num / den` rounded to the nearest natural number, halves to the even one. -/
def roundHalfEven (num den : Nat) : Nat :=
  let quotient := num / den
  let twice := 2 * (num % den)
  if twice < den then quotient
  else if den < twice then quotient + 1
  else if quotient % 2 = 0 then quotient else quotient + 1

/-- Rounding to nearest moves a quotient by at most one half. -/
theorem roundHalfEven_near (num : Nat) {den : Nat} (h : 0 < den) :
    2 * num ≤ 2 * (den * roundHalfEven num den) + den ∧
      2 * (den * roundHalfEven num den) ≤ 2 * num + den := by
  have hdiv := Nat.div_add_mod num den
  have hmod := Nat.mod_lt num h
  unfold roundHalfEven
  simp only
  split
  · omega
  · split
    · rw [Nat.mul_add]; omega
    · split
      · omega
      · rw [Nat.mul_add]; omega

namespace Binary64

def minExponent : Int := -1074

/-- The greatest exponent of a finite double with a full mantissa. -/
def maxExponent : Int := 971

/-- `2 ^ 52`, the mantissas of normal doubles start here. -/
def normal : Nat := 1 <<< 52

def zero : Binary64 := .finite false 0 minExponent

def one : Binary64 := .finite false normal (-52)

/-- The exponent of the leading binary digit of `num / den`, for positive `num` and `den`. -/
def leading (num den : Nat) : Int :=
  let estimate : Int := (num.log2 : Int) - (den.log2 : Int)
  if den <<< estimate.toNat ≤ num <<< (-estimate).toNat then estimate else estimate - 1

/-- The double nearest to `num / den`. -/
def ofRatio (negative : Bool) (num den : Nat) : Binary64 :=
  if num = 0 then .finite negative 0 minExponent
  else
    let exponent := max minExponent (leading num den - 52)
    let mantissa := roundHalfEven (num <<< (-exponent).toNat) (den <<< exponent.toNat)
    let carried := mantissa = 2 * normal
    let mantissa := if carried then normal else mantissa
    let exponent := if carried then exponent + 1 else exponent
    if maxExponent < exponent then .infinite negative else .finite negative mantissa exponent

/-- The double nearest to `digits * 10 ^ exponent`.  Beyond every finite double the answer is known
without forming the power. -/
def ofDecimal (negative : Bool) (digits : Nat) (exponent : Int) : Binary64 :=
  let places : Int := (digits.log2 : Int) / 3 + 1 + exponent
  if digits = 0 then .finite negative 0 minExponent
  else if exponent > 400 then .infinite negative
  else if places < -400 then .finite negative 0 minExponent
  else ofRatio negative (digits * Nat.pow 10 exponent.toNat) (Nat.pow 10 (-exponent).toNat)

def ofInt (n : Int) : Binary64 := ofRatio (n < 0) n.natAbs 1

def ofBits (bits : UInt64) : Binary64 :=
  let word := bits.toNat
  let negative := word >>> 63 == 1
  let field : Nat := (word >>> 52) % 2048
  let fraction := word % normal
  if field = 2047 then (if fraction = 0 then .infinite negative else .nan)
  else if field = 0 then .finite negative fraction minExponent
  else .finite negative (normal + fraction) ((field : Int) - 1075)

def toBits : Binary64 → UInt64
  | .nan => 0x7ff8000000000000
  | .infinite negative => UInt64.ofNat ((if negative then 1 <<< 63 else 0) + 2047 <<< 52)
  | .finite negative mantissa exponent =>
    let magnitude :=
      if mantissa < normal then mantissa
      else (exponent + 1075).toNat * normal + (mantissa - normal)
    UInt64.ofNat ((if negative then 1 <<< 63 else 0) + magnitude)

def ofFloat (x : Float) : Binary64 := ofBits x.toBits

def toFloat (x : Binary64) : Float := Float.ofBits x.toBits

/-- Whether a double is an integer or a fraction, not an infinity and not NaN. -/
def isFinite : Binary64 → Bool
  | .finite .. => true
  | _ => false

def isZero : Binary64 → Bool
  | .finite _ mantissa _ => mantissa == 0
  | _ => false

/-- The exact value of a sign, a mantissa and an exponent. -/
def exactly (negative : Bool) (mantissa : Nat) (exponent : Int) : Rat :=
  let magnitude := mkRat (mantissa <<< exponent.toNat) (1 <<< (-exponent).toNat)
  if negative then -magnitude else magnitude

example : ofDecimal false 1 (-1) = .finite false 7205759403792794 (-56) := by decide +kernel
example : ofDecimal false 5 (-324) = .finite false 1 (-1074) := by decide +kernel
example : ofDecimal false 17976931348623159 292 = .infinite false := by decide +kernel

end Binary64

end Deontic
