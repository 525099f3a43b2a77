import Deontic.Grammar.Growth
import Deontic.Random.Trace
import Deontic.Text.Number

/-! Tasks placed in zones.  A task has a colour, and an agent puts it into one of a few zones.  A
norm changes where: an obligation for the colour fixes the zone, a prohibition for the colour leaves
the others, and all else leaves every zone equally likely.  Norms are inferred from a placement by
drawing them and weighing each draw by how likely it makes the placement. -/

namespace Deontic

/-- A task's colour, a norm, and the zone that the task is put into. -/
structure Placement where
  colour : String
  norm : Tree
  zone : Value
  deriving Inhabited

namespace Placement

def colours : List String := ["red", "blue", "green"]

def anyColour : String := "any"

def zoneCount : Int := 3

def written (placement : Placement) : String :=
  "(" ++ Text.quoted placement.colour ++ ", " ++ placement.norm.written ++ ", " ++
    placement.zone.written ++ ")"

/-- Whether a norm for one colour applies to tasks of another. -/
def applies (normColour colour : String) : Bool :=
  normColour == colour || normColour == anyColour

variable {P W : Type} [Scale P W]

/-- The longest row of zones that there is memory for.  No rule sets this number, only the machine
that the row is made on; `2 ^ 32` stands for that machine. -/
def maxZones : Int := 4294967296

/-- A number of zones.  One that is no machine word is refused as such, a smaller one of which no
row can be made for lack of memory. -/
def checkCount (zones : Int) : Except NumberFault Nat :=
  if zones < Int64.minValue.toInt ∨ Int64.maxValue.toInt < zones then .error .countTooLarge
  else if maxZones < zones then .error .tooManyItems
  else .ok zones.toNat

def uniform (zones : Int) : Except Fault (List P) :=
  if zones = 0 then .error (.number .integerDivision)
  else do return .replicate (← checkCount zones) (Scale.ratio 1 zones)

/-- The place of a zone's label among zones numbered from one. -/
def zoneIndex (label : String) (zones : Int) : Except Fault Nat :=
  let chars := label.toList
  let refused := Fault.grammar (.noSuchZone label zones)
  if chars.isEmpty || !chars.all Text.isDigit then .error refused
  else match Text.readInteger label with
    | .error .notNumeral => .error (.notInteger label)
    | .error (.tooLong digits) => .error (.tooManyDigits digits)
    | .ok n => if 1 ≤ n ∧ n ≤ zones then .ok (n.toNat - 1) else .error refused

/-- The zones under an obligation to use one of them for a colour. -/
def obliged (normColour zone colour : String) (zones : Int) : Except Fault (List P) := do
  if !applies normColour colour then uniform zones
  else
    let count ← checkCount zones
    let ruled ← zoneIndex zone zones
    return (List.replicate count (Scale.zero P)).set ruled (Scale.one P)

/-- The zones under a prohibition to use one of them for a colour. -/
def prohibited (normColour zone colour : String) (zones : Int) : Except Fault (List P) := do
  if !applies normColour colour then uniform zones
  else
    let count ← checkCount zones
    let ruled ← zoneIndex zone zones
    let allowed := (List.replicate count (Scale.one P)).set ruled (Scale.zero P)
    let total := allowed.foldl Scale.add (Scale.zero P)
    if Scale.le total (Scale.zero P) then throw (.number .realDivision)
    return allowed.map fun p => Scale.div p total

def zones (colour : String) (norm : Tree) (count : Int) : Except Fault (List P) :=
  match norm with
  | .branch .obligation (.leaf .colour normColour _) (.leaf .zone zone _) _ =>
    obliged normColour zone colour count
  | .branch .prohibition (.leaf .colour normColour _) (.leaf .zone zone _) _ =>
    prohibited normColour zone colour count
  | _ => uniform count

/-- Whether a norm says something about zones, if only that there is no norm. -/
def isRuled : Tree → Bool
  | .leaf .noNorm _ _ => true
  | .branch .obligation (.leaf .colour _ _) (.leaf .zone _ _) _ => true
  | .branch .prohibition (.leaf .colour _ _) (.leaf .zone _ _) _ => true
  | _ => false

def task : Program P String := fun _ => do
  let chosen ← Sampler.sample (.text "color")
    (.categorical (colours.map fun colour => (.text colour, Scale.ratio 1 colours.length)))
  match chosen.text? with
  | some colour => return colour
  | none => .fail (.noEntry chosen)

/-- The program that chooses a task, a norm, and the zone of the task under the norm. -/
def program (grammar : Grammar P) : Program P Placement := fun calls => do
  let colour ← (task calls).under (.text "task")
  let norm ← (grammar.grow calls 1 grammar.root).under (.text "norm")
  if !isRuled norm then Sampler.tell (.unruled norm)
  let weights ← (zones colour norm zoneCount : Except Fault (List P))
  let labelled := weights.zipIdx.map fun (p, i) => (Value.int (i + 1), p)
  let zone ← Sampler.sample (.text "zone") (.categorical labelled)
  return ⟨colour, norm, zone⟩

/-- The choices that a placement of a colour in a zone shows. -/
def observation (colour zone : Value) : Except AddressFault Choices := do
  let choices ← Choices.empty.set [.text "task", .text "color"] colour
  choices.setItem (.text "zone") zone

/-- Draws norms under constraints, besides those so far, of which the last comes first.  A draw of
weight zero is dropped. -/
def inferFrom (grammar : Grammar P) (constraints : Choices) :
    Nat → List (Tree × P) → Act P (List (Tree × P))
  | 0, found => return found.reverse
  | draws + 1, found => do
    let (trace, weight) ← (program grammar).generate constraints
    match trace with
    | none =>
      Act.tell .discarded
      inferFrom grammar constraints draws found
    | some trace =>
      if Scale.isImpossible P weight then
        Act.tell .discarded
        inferFrom grammar constraints draws found
      else
        let importance ← (Scale.exp weight : Except NumberFault P)
        inferFrom grammar constraints draws ((trace.result.norm, importance) :: found)

/-- Draws a number of norms under constraints, with their weights. -/
def infer (grammar : Grammar P) (draws : Int) (constraints : Choices) :
    Act P (List (Tree × P)) := do
  let found ← inferFrom grammar constraints draws.toNat []
  Act.tell (.kept found.length draws)
  return found

end Placement

end Deontic
