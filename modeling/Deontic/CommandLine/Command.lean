import Deontic.CommandLine.Arguments
import Deontic.CommandLine.Help
import Deontic.Place
import Deontic.Placement
import Deontic.Text.Number

/-! The commands of the program and their settings.  `sample` draws a tree, `chain` draws one and
moves it, and `infer` draws norms for a task's colour and the zone it was put into.  The settings of
the whole program stand before the command, those of the command after it.  Either may ask for help
instead. -/

namespace Deontic.CommandLine

/-- What to do. -/
inductive Command where
  | sample (showChoices : Bool)
  | chain (steps : Given Int) (check : Bool)
  | infer (colour : Given String) (zone : Given Int) (draws : Given Int)
  deriving DecidableEq, Inhabited

def Command.name : Command → String
  | sample .. => "sample"
  | chain .. => "chain"
  | infer .. => "infer"

/-- The settings of the whole program: whether to tell every detail, the seed of the draws, and the
place of the grammar. -/
structure Settings where
  verbose : Bool
  seed : Option Int
  grammar : Option (Given String)
  deriving DecidableEq, Inhabited

/-- Settings with a command. -/
structure Request where
  settings : Settings
  command : Command
  deriving DecidableEq, Inhabited

/-- What the program says instead of carrying out a request: help, or which part of it refuses its
arguments and why. -/
inductive Reply where
  | help (text : String)
  | refusal (program reason : String)
  deriving DecidableEq, Inhabited

/-- What a part of the program says when reading its arguments ends early. -/
def Stop.reply (program help : String) : Stop → Reply
  | .help => .help help
  | .refused reason => .refusal program reason

/-- The colour and the zone of an inference, which have to be given, and the number of draws. -/
structure Observed where
  colour : Option (Given String)
  zone : Option (Given Int)
  draws : Given Int

def readInteger (value : String) : Except String Int :=
  match Text.readInteger value with
  | .ok n => .ok n
  | .error _ => .error ("invalid int value: " ++ Text.quoted value)

/-- Accepts a value that is among the choices, given as they are written. -/
def oneOf (choices : List String) (written : String) : Except String Unit :=
  if choices.contains written then .ok ()
  else .error ("invalid choice: " ++ written ++ " (choose from " ++ ", ".intercalate choices ++ ")")

def readColour (value : String) : Except String String := do
  oneOf (Placement.colours.map Text.quoted) (Text.quoted value)
  return value

def readZone (value : String) : Except String Int := do
  let zone ← readInteger value
  oneOf ((List.range Placement.zoneCount.toNat).map fun n => toString (n + 1)) (toString zone)
  return zone

def settingsFlags : List (Flag Settings) :=
  [.help, ⟨["-v", "--verbose"], .switch fun s => { s with verbose := true }⟩,
   ⟨["--seed"], .value fun value s => do
      return { s with seed := (← value.read readInteger).value? }⟩,
   ⟨["--config"], .value fun value s => do
      return { s with grammar := some (← value.read fun path => .ok (Place.tidy path)) }⟩]

/-- The options of `sample`. -/
def sampleFlags : List (Flag Bool) := [.help, ⟨["--choices"], .switch fun _ => true⟩]

/-- The options of `chain`. -/
def chainFlags : List (Flag (Given Int × Bool)) :=
  [.help, ⟨["--steps"], .value fun value s => do return (← value.read readInteger, s.2)⟩,
   ⟨["--check"], .switch fun s => (s.1, true)⟩]

/-- The options of `infer`. -/
def inferFlags : List (Flag Observed) :=
  [.help, ⟨["--color"], .value fun value s => do
      return { s with colour := some (← value.read readColour) }⟩,
   ⟨["--zone"], .value fun value s => do return { s with zone := some (← value.read readZone) }⟩,
   ⟨["-n"], .value fun value s => do return { s with draws := ← value.read readInteger }⟩]

def commandNames : List String := ["sample", "chain", "infer"]

def programName : String := "normtree"

/-- Reads the arguments of one command, and gives those that fit nowhere. -/
def parseCommand (name : String) (args : List String) : Except Reply (Command × List String) :=
  let program := programName ++ " " ++ name
  if name == "sample" then do
    let read ← (parse sampleFlags false false args).mapError (Stop.reply program Help.sample)
    return (.sample read.settings, read.extras)
  else if name == "chain" then do
    let read ← (parse chainFlags false (.value 100, false) args).mapError
      (Stop.reply program Help.chain)
    return (.chain read.settings.1 read.settings.2, read.extras)
  else if name == "infer" then do
    let read ← (parse inferFlags false ⟨none, none, .value 10⟩ args).mapError
      (Stop.reply program Help.infer)
    let observed := read.settings
    match observed.colour, observed.zone with
    | some colour, some zone => return (.infer colour zone observed.draws, read.extras)
    | none, _ | some _, none =>
      let missing := (if observed.colour.isNone then ["--color"] else []) ++
        (if observed.zone.isNone then ["--zone"] else [])
      throw (.refusal program
        ("the following arguments are required: " ++ ", ".intercalate missing))
  else
    throw (.refusal programName ("argument command: invalid choice: " ++ Text.quoted name ++
      " (choose from " ++ ", ".intercalate (commandNames.map Text.quoted) ++ ")"))

def Request.parse (args : List String) : Except Reply Request := do
  let read ← (CommandLine.parse settingsFlags true ⟨false, none, none⟩ args).mapError
    (Stop.reply programName Help.program)
  match read.command with
  | none | some [] =>
    throw (.refusal programName "the following arguments are required: command")
  | some (name :: args) =>
    let (command, extras) ← parseCommand name args
    let extras := read.extras ++ extras
    if extras.isEmpty then return ⟨read.settings, command⟩
    else throw (.refusal programName ("unrecognized arguments: " ++ " ".intercalate extras))

end Deontic.CommandLine
