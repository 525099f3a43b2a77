import Deontic.Scale
import Deontic.Table
import Deontic.Value

/-! The distributions of single choices.  A weight decides how likely its label is, and weights need
not sum to one.  A draw is a number from zero up to, but not including, one: it selects the first
label at which the running sum of the weights, divided by their total, exceeds the draw. -/

namespace Deontic

/-- A choice among weighted labels, or between yes and no with the probability of yes. -/
inductive Distribution (P : Type) where
  | categorical (weighted : List (Value × P))
  | bernoulli (yes : P)
  deriving Inhabited

/-- Why no value can be drawn. -/
inductive SupplyFault where
  | exhausted
  | badWeights
  deriving DecidableEq, Inhabited

def SupplyFault.message : SupplyFault → String
  | exhausted => "no draws left"
  | badWeights => "weights do not form a distribution"

namespace Distribution

variable {P W : Type} [Scale P W]

def ofTexts (weights : Table String P) : Distribution P :=
  .categorical (weights.entries.map fun entry => (.text entry.1, entry.2))

/-- The probability of a value as it is given: the weight of its label. -/
def density : Distribution P → Value → P
  | categorical weighted, value =>
    ((weighted.find? fun entry => entry.1 == value).map Prod.snd).getD (Scale.zero P)
  | bernoulli yes, value => if value.isTrue then yes else Scale.sub (Scale.one P) yes

def logDensity (dist : Distribution P) (value : Value) : W := Scale.logOf (dist.density value)

/-- Adds numbers to eight running sums in turn, block by block; gives the sums and what is left when
less than a block remains. -/
def addBlocks (sums : List P) (xs : List P) : List P × List P :=
  if _h : 8 ≤ xs.length then
    addBlocks (List.zipWith Scale.add sums (xs.take 8)) (xs.drop 8)
  else (sums, xs)
termination_by xs.length
decreasing_by simp only [List.length_drop]; omega

def addPairs : List P → List P
  | a :: b :: rest => Scale.add a b :: addPairs rest
  | rest => rest

/-- The total of a row of weights.  Fewer than eight are added from left to right; of more, every
eighth is added into one of eight sums, these are added in pairs, and what is left over comes
last. -/
def rowTotal (weights : List P) : P :=
  if weights.length < 8 then weights.foldl Scale.add (Scale.zero P)
  else
    let (sums, rest) := addBlocks (weights.take 8) (weights.drop 8)
    match addPairs (addPairs (addPairs sums)) with
    | first :: _ => rest.foldl Scale.add first
    | [] => Scale.zero P

def maxRow : Nat := 128

/-- The total of weights.  A row that is too long is cut into halves, the first of them in whole
blocks of eight, and the totals of both are added. -/
def total (weights : List P) : P :=
  if _h : maxRow < weights.length then
    let half := weights.length / 2 / 8 * 8
    Scale.add (total (weights.take half)) (total (weights.drop half))
  else rowTotal weights
termination_by weights.length
decreasing_by all_goals simp only [maxRow, List.length_take, List.length_drop] at *; omega

/-- A row that is short enough is not cut. -/
theorem total_eq_rowTotal {weights : List P} (h : weights.length ≤ maxRow) :
    total weights = rowTotal weights := by
  rw [total, dif_neg (by omega)]

/-- The running sums of numbers, after a sum so far. -/
def runningFrom (sum : P) : List P → List P
  | [] => []
  | x :: rest => Scale.add sum x :: runningFrom (Scale.add sum x) rest

def running : List P → List P
  | [] => []
  | x :: rest => x :: runningFrom x rest

/-- The running sums of the normalised weights, themselves divided by the last of them. -/
def thresholds (weights : List P) : List P :=
  let all := total weights
  let sums := running (weights.map fun w => Scale.div w all)
  match sums.getLast? with
  | some last => sums.map fun s => Scale.div s last
  | none => []

/-- Whether the weights, divided by their total, are numbers, none of them negative and not all of
them zero.  An infinite total leaves nothing but zeros. -/
def isProper (weights : List P) : Bool :=
  let all := total weights
  let normalised := weights.map fun w => Scale.div w all
  normalised.all (fun p => Scale.le (Scale.zero P) p) && normalised.any (Scale.lt (Scale.zero P))

def select (draw : P) : List (Value × P) → Option Value
  | [] => none
  | (label, threshold) :: rest => if Scale.lt draw threshold then some label else select draw rest

/-- Draws a value, with the draws that remain.  Improper weights are refused before a draw is
taken. -/
def sample (dist : Distribution P) (draws : List P) : Except SupplyFault (Value × List P) :=
  match dist with
  | bernoulli yes =>
    match draws with
    | [] => .error .exhausted
    | draw :: rest => .ok (.bool (Scale.lt draw yes), rest)
  | categorical weighted =>
    let weights := weighted.map Prod.snd
    if !isProper weights then .error .badWeights
    else match draws with
      | [] => .error .exhausted
      | draw :: rest =>
        match select draw ((weighted.map Prod.fst).zip (thresholds weights)) with
        | some label => .ok (label, rest)
        | none => .error .badWeights

end Distribution

end Deontic
