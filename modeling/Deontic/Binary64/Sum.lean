import Deontic.Binary64.Basic

/-! The exact sum of doubles, rounded once.  Every finite double is a whole number of units of
`2 ^ minExponent`.  A sum in progress is a row of parts.  A summand is added to one part after the
other: what rounding takes away stays as a part, and the rounded sum goes on.  `sum_absorb` says
that the parts add up to the exact sum.  A rounded sum beyond the finite doubles is an overflow,
even if later summands would take it back; an infinite or undefined summand decides the result. -/

namespace Deontic.Binary64

/-- A finite double in units of `2 ^ minExponent`. -/
def units (negative : Bool) (mantissa : Nat) (exponent : Int) : Int :=
  let magnitude : Int := mantissa <<< (exponent - minExponent).toNat
  if negative then -magnitude else magnitude

def ofUnits (n : Int) : Binary64 := ofRatio (n < 0) n.natAbs (1 <<< (-minExponent).toNat)

/-- The units of the double nearest to a number of units, if that double is finite. -/
def roundUnits? (n : Int) : Option Int :=
  match ofUnits n with
  | .finite negative mantissa exponent => some (units negative mantissa exponent)
  | _ => none

/-- Adds a summand to parts; `none` when a rounded sum overflows. -/
def absorb (summand : Int) : List Int → Option (List Int)
  | [] => some (if summand = 0 then [] else [summand])
  | part :: rest => do
    let rounded ← roundUnits? (summand + part)
    let parts ← absorb rounded rest
    let lost := summand + part - rounded
    return if lost = 0 then parts else lost :: parts

/-- No summand is lost in the parts. -/
theorem sum_absorb {summand : Int} {parts result : List Int}
    (h : absorb summand parts = some result) :
    result.foldr (· + ·) 0 = summand + parts.foldr (· + ·) 0 := by
  induction parts generalizing summand result with
  | nil =>
    rw [absorb, Option.some.injEq] at h
    subst h
    split
    · next hzero => simp [hzero]
    · simp
  | cons part rest ih =>
    rw [absorb, Option.bind_eq_bind, Option.bind_eq_some_iff] at h
    obtain ⟨rounded, -, h⟩ := h
    rw [Option.bind_eq_bind, Option.bind_eq_some_iff] at h
    obtain ⟨later, hlater, h⟩ := h
    have hsum := ih hlater
    obtain rfl := Option.some.inj h
    rw [List.foldr_cons]
    split
    · omega
    · rw [List.foldr_cons]
      omega

/-- Two summands that are not finite, taken together. -/
def joinSpecial : Option Binary64 → Binary64 → Binary64
  | none, x => x
  | some (.infinite a), .infinite b => if a = b then .infinite a else .nan
  | some _, _ => .nan

/-- The sum from the parts of the finite summands and the other summands so far. -/
def sumFrom (parts : List Int) (special : Option Binary64) : List Binary64 → Option Binary64
  | [] => some (special.getD (ofUnits (parts.foldr (· + ·) 0)))
  | .finite negative mantissa exponent :: rest =>
    match absorb (units negative mantissa exponent) parts with
    | some parts => sumFrom parts special rest
    | none => none
  | x :: rest => sumFrom [] (some (joinSpecial special x)) rest

/-- The exact sum; `none` when a rounded sum overflows. -/
def sum (xs : List Binary64) : Option Binary64 := sumFrom [] none xs

end Deontic.Binary64
