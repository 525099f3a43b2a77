import Deontic.Binary64.Sum

/-! The numbers of a sampler: probabilities `P` and log-weights `W`.  Everything that computes with
them is written for any scale; machine doubles run it, and an exact scale, such as fractions with
products for sums of logarithms, is one in which its laws hold without rounding.  `double` and
`weightDouble` are the doubles by which records and messages show a number. -/

namespace Deontic

/-- A computation with numbers that has no answer. -/
inductive NumberFault where
  | sumOverflow
  | tooLarge
  | outOfRange
  | integerDivision
  | realDivision
  | countTooLarge
  | tooManyItems
  deriving DecidableEq, Inhabited

def NumberFault.message : NumberFault → String
  | sumOverflow => "intermediate overflow in fsum"
  | tooLarge => "int too large to convert to float"
  | outOfRange => "math range error"
  | integerDivision => "division by zero"
  | realDivision => "float division by zero"
  | countTooLarge => "cannot fit 'int' into an index-sized integer"
  | tooManyItems => ""

/-- Arithmetic of probabilities `P` and of the logarithms `W` of their products. -/
class Scale (P : Type) (W : outParam Type) where
  ofInt : Int → P
  ofDouble : Binary64 → P
  double : P → Binary64
  add : P → P → P
  sub : P → P → P
  div : P → P → P
  lt : P → P → Bool
  le : P → P → Bool
  /-- The exact sum, rounded once. -/
  exactSum : List P → Except NumberFault P
  /-- The logarithm of a positive number. -/
  log : P → W
  exp : W → Except NumberFault P
  /-- The log-weight of certainty. -/
  certain : W
  /-- The log-weight of what cannot happen. -/
  impossible : W
  isImpossible : W → Bool
  plus : W → W → W
  minus : W → W → W
  negate : W → W
  /-- Whether a log-weight belongs to a ratio of at least one. -/
  isAtLeastCertain : W → Bool
  /-- Whether two log-weights differ by no more than rounding may explain. -/
  close : W → W → Bool
  weightDouble : W → Binary64

namespace Scale

variable {P W : Type} [Scale P W]

def zero (P : Type) {W : Type} [Scale P W] : P := ofInt 0

def one (P : Type) {W : Type} [Scale P W] : P := ofInt 1

def ratio (num den : Int) : P := div (ofInt num) (ofInt den)

/-- The logarithm of a probability; what is not positive is impossible. -/
def logOf (p : P) : W := if lt (zero P) p then log p else impossible P

/-- Whether a number differs from one by at most a millionth. -/
def isNearlyOne (p : P) : Bool :=
  let tolerance : P := ratio 1 1000000
  le (sub p (one P)) tolerance && le (sub (one P) p) tolerance

end Scale

/-- Whether two doubles differ by at most a billionth of the larger, or a billionth. -/
def Scale.areNear (a b : Float) : Bool :=
  a == b || (a.isFinite && b.isFinite &&
    (let gap := (b - a).abs
     gap <= (1e-9 * b).abs || gap <= (1e-9 * a).abs || gap <= 1e-9))

/-- Machine doubles, which round every operation. -/
instance : Scale Float Float where
  ofInt n := (Binary64.ofInt n).toFloat
  ofDouble := Binary64.toFloat
  double := Binary64.ofFloat
  add := (· + ·)
  sub := (· - ·)
  div := (· / ·)
  lt a b := a < b
  le a b := a ≤ b
  exactSum ps :=
    match Binary64.sum (ps.map Binary64.ofFloat) with
    | some total => .ok total.toFloat
    | none => .error .sumOverflow
  log := Float.log
  exp w :=
    let p := Float.exp w
    if p.isInf && !w.isInf then .error .outOfRange else .ok p
  certain := 0
  impossible := -(1 / 0)
  isImpossible w := w == -(1 / 0)
  plus := (· + ·)
  minus := (· - ·)
  negate := (- ·)
  isAtLeastCertain w := 0 ≤ w
  close := Scale.areNear
  weightDouble := Binary64.ofFloat

end Deontic
