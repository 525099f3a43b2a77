import Deontic.CommandLine.Session

/-! The program.  It reads the grammar that the arguments name, makes draws from the seed, runs the
request on both, and writes what was printed and recorded.  It ends with 0, with 2 if the arguments
were refused, and with 1 if the run failed. -/

namespace Deontic.CommandLine

/-- Puts a number of draws, from zero up to one, before those so far. -/
def makeDraws : Nat → StdGen → List Float → List Float
  | 0, _, draws => draws
  | count + 1, source, draws =>
    let (n, source) := randNat source 0 (1 <<< 53 - 1)
    makeDraws count source (n.toFloat / (1 <<< 53 : Nat).toFloat :: draws)

/-- A run with enough draws: one that used them up is made again with twice as many, of which the
first are the same. -/
def runSupplied (args : List String) (find : Finder) (source : StdGen) :
    Nat → Nat → Outcome Float
  | 0, count => run args find (makeDraws count source []).reverse
  | attempts + 1, count =>
    let outcome := run args find (makeDraws count source []).reverse
    match outcome.result with
    | .error (.supply .exhausted) => runSupplied args find source attempts (2 * count)
    | _ => outcome

/-- The source of draws that a seed determines; without a seed it differs from run to run. -/
def drawSource : Option Int → IO StdGen
  | some seed => return mkStdGen (if seed < 0 then 2 * seed.natAbs - 1 else 2 * seed.natAbs)
  | none => return mkStdGen (← IO.rand 0 (1 <<< 62))

/-- What it means that a file cannot be read.  A directory can be opened, and fails without a name
when it is read; a path through a file cannot even be opened. -/
def placeFault : IO.Error → PlaceFault
  | .inappropriateType none .. => .directory
  | .inappropriateType .. => .belowFile
  | .invalidArgument .. => .tooLong
  | _ => .missing

/-- Reads the text at a place, which is all that is found then. -/
def readPlace : Option (Given String) → IO Finder
  | some (.value place) => do
    let found ← try
        let source ← IO.FS.readFile (Text.plain place)
        pure (Except.ok (Text.ofChars source))
      catch e => pure (.error (placeFault e))
    return fun path => if path == place then found else .error .missing
  | none | some .nothing => return fun _ => .error .missing

/-- Writes an outcome, and gives the number with which the program ends. -/
def Outcome.write (outcome : Outcome Float) : IO UInt32 := do
  outcome.printed.forM fun text => IO.println (Text.plain text)
  outcome.recorded.forM fun text => IO.eprintln (Text.plain text)
  match outcome.result with
  | .ok code => return code.toUInt32
  | .error fault =>
    IO.eprintln (Text.plain fault.message)
    return 1

end Deontic.CommandLine

open Deontic.CommandLine in
def main (args : List String) : IO UInt32 := do
  let args := args.map Deontic.Text.ofChars
  let settings : Settings :=
    match Request.parse args with
    | .ok request => request.settings
    | .error _ => ⟨false, none, none⟩
  let find ← readPlace settings.grammar
  let source ← drawSource settings.seed
  (runSupplied args find source 12 4096).write
