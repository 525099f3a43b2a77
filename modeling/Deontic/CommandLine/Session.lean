import Deontic.CommandLine.Command
import Deontic.Grammar.Loading
import Deontic.Metropolis

/-! Carrying out a request: what is printed, what is recorded, and how it ends.  What was printed
and recorded before a failure stays. -/

namespace Deontic.CommandLine

/-- A computation that also prints lines; the last comes first. -/
abbrev Printing (P : Type) := ExceptT Fault (StateM (Supply P × List String))

namespace Printing

variable {P α : Type}

def line (text : String) : Printing P Unit :=
  modify fun (supply, lines) => (supply, text :: lines)

def ofAct (act : Act P α) : Printing P α := do
  let (supply, lines) ← get
  let (result, supply) := (act.run.run supply : Except Fault α × Supply P)
  set (supply, lines)
  match result with
  | .ok result => return result
  | .error fault => throw fault

instance : MonadLift (Act P) (Printing P) := ⟨ofAct⟩

end Printing

variable {P W : Type} [Scale P W]

abbrev Finder := String → Except PlaceFault String

/-- The grammar at the place that is given, or the standard one. -/
def findGrammar (find : Finder) : Option (Given String) → Except Fault (Grammar P)
  | none => .ok .standard
  | some .nothing => .error (.place .notGiven)
  | some (.value place) => do Grammar.load .standard place (← find place)

def count : Given Int → Except Fault Int
  | .nothing => .error .notACount
  | .value n => .ok n

/-- A part of an observation.  Nothing is seen as an empty list, which no placement shows. -/
def seen {α : Type} (value : α → Value) : Given α → Value
  | .nothing => .list []
  | .value a => value a

def Command.run (grammar : Grammar P) : Command → Printing P Unit
  | sample showChoices => do
    let trace : Trace P W Tree ← grammar.model.simulate
    Printing.line trace.result.pretty
    if showChoices then Printing.line trace.choices.listing
  | chain steps check => do
    let trace : Trace P W Tree ← grammar.model.simulate
    Printing.line ("initial: " ++ trace.result.pretty)
    let steps ← (count steps : Except Fault Int)
    let (trace, accepted) ← grammar.kernel.chain steps check trace
    Printing.line ("final:   " ++ trace.result.pretty)
    Printing.line ("accepted " ++ toString accepted ++ "/" ++ toString steps)
  | infer colour zone draws => do
    let observed ← Placement.observation (seen .text colour) (seen .int zone)
    let found ← Placement.infer grammar (← (count draws : Except Fault Int)) observed
    found.forM fun (norm, weight) =>
      Printing.line ((Scale.double weight).toFixed 6 ++ "  " ++ norm.pretty)

def Request.run (find : Finder) (request : Request) : Printing P Unit := do
  (Act.tell (.running request.command.name) : Act P Unit)
  let grammar : Grammar P ← findGrammar find request.settings.grammar
  request.command.run grammar

/-- How a run of the program ended, with what it wrote. -/
structure Outcome (P : Type) where
  result : Except Fault Nat
  printed : List String
  recorded : List String
  draws : List P

def Settings.shows (settings : Settings) (record : Record) : Bool :=
  settings.verbose || !record.isDetail

/-- Runs the program on arguments, files and draws. -/
def run (args : List String) (find : Finder) (draws : List P) : Outcome P :=
  match Request.parse args with
  | .error (.help text) => ⟨.ok 0, [text], [], draws⟩
  | .error (.refusal program reason) => ⟨.ok 2, [], [program ++ ": error: " ++ reason], draws⟩
  | .ok request =>
    let (result, supply, printed) :=
      ((request.run find).run.run (⟨draws, []⟩, []) : Except Fault Unit × Supply P × List String)
    ⟨(result.map fun _ => 0).mapError Fault.reported, printed.reverse,
      (supply.records.reverse.filter request.settings.shows).map Record.line, supply.draws⟩

end Deontic.CommandLine
