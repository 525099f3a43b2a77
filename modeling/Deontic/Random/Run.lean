import Deontic.Random.Sampler

/-! Running a sampler.  At each address the value is the one that a constraint forces, else that of
an earlier run, else a fresh draw; a strict run has forced values only.  The run records its choices
and the earlier values it did not keep, and adds up log-densities: of all choices, of the forced and
of the fresh ones.  A forced or kept value of density zero stops it. -/

namespace Deontic

/-- What a run is given besides draws. -/
structure Setting where
  constraints : Table Path Value
  previous : Table Path Value
  strict : Bool

/-- What a run has used and recorded.  The last record and the last visit come first. -/
structure Run (P W : Type) where
  draws : List P
  records : List Record
  visited : List Path
  choices : Choices
  discard : Choices
  score : W
  forced : W
  fresh : W

/-- Why a run stopped before its result. -/
inductive Halt where
  | impossible (address : Path)
  | fault (fault : Fault)
  deriving Inhabited

namespace Setting

def free : Setting := ⟨.empty, .empty, false⟩

def forcing (constraints : Choices) : Setting := ⟨constraints.flatten, .empty, false⟩

def fixing (choices : Choices) : Setting := ⟨choices.flatten, .empty, true⟩

/-- Values forced at some addresses, and those of an earlier run at others. -/
def revising (edits previous : Choices) : Setting := ⟨edits.flatten, previous.flatten, false⟩

def size (setting : Setting) : Nat := setting.constraints.size + setting.previous.size

end Setting

namespace Run

variable {P W : Type} [Scale P W]

def start (draws : List P) (records : List Record) : Run P W :=
  { draws, records, visited := [], choices := .empty, discard := .empty,
    score := Scale.certain P, forced := Scale.certain P, fresh := Scale.certain P }

def keep (run : Run P W) (address : Path) (value : Value) (density : W) :
    Except Halt Value × Run P W :=
  match run.choices.set address value with
  | .ok choices => (.ok value, { run with choices, score := Scale.plus P run.score density })
  | .error fault => (.error (.fault (.choices fault)), run)

def drop (setting : Setting) (run : Run P W) (address : Path) : Run P W :=
  match setting.previous.get? address with
  | some old =>
    match run.discard.set address old with
    | .ok discard => { run with discard }
    | .error _ => run
  | none => run

def force (setting : Setting) (dist : Distribution P) (run : Run P W) (address : Path)
    (value : Value) : Except Halt Value × Run P W :=
  let density : W := dist.logDensity value
  let run := run.drop setting address
  if Scale.isImpossible P density then (.error (.impossible address), run)
  else { run with forced := Scale.plus P run.forced density }.keep address value density

def reuse (dist : Distribution P) (run : Run P W) (address : Path) (value : Value) :
    Except Halt Value × Run P W :=
  let density : W := dist.logDensity value
  if Scale.isImpossible P density then (.error (.impossible address), run)
  else run.keep address value density

def draw (dist : Distribution P) (run : Run P W) (address : Path) :
    Except Halt Value × Run P W :=
  match dist.sample run.draws with
  | .error fault => (.error (.fault (.supply fault)), run)
  | .ok (value, draws) =>
    let density : W := dist.logDensity value
    { run with draws, fresh := Scale.plus P run.fresh density }.keep address value density

def settle (setting : Setting) (dist : Distribution P) (run : Run P W) (address : Path) :
    Except Halt Value × Run P W :=
  match setting.constraints.get? address with
  | some value => run.force setting dist address value
  | none =>
    match setting.previous.get? address with
    | some value => run.reuse dist address value
    | none =>
      if setting.strict then (.error (.fault (.execution (.unvalued address))), run)
      else run.draw dist address

/-- One choice, at an address of keys.  No address may be visited twice. -/
def visit (setting : Setting) (dist : Distribution P) (run : Run P W) (address : Path) :
    Except Halt Value × Run P W :=
  match address.check with
  | .error fault => (.error (.fault (.choices fault)), run)
  | .ok () =>
    if run.visited.contains address then
      (.error (.fault (.execution (.repeated address))), run)
    else settle setting dist { run with visited := address :: run.visited } address

/-- Ends a run that reached its result.  Every constraint must have been visited, and earlier values
that were not go into the discard. -/
def finish (setting : Setting) (run : Run P W) : Except Halt (Run P W) :=
  match setting.constraints.keys.find? fun address => !run.visited.contains address with
  | some address => .error (.fault (.execution (.unvisited address)))
  | none =>
    .ok ((setting.previous.keys.filter fun address => !run.visited.contains address).foldl
      (drop setting) run)

end Run

/-- Runs a sampler to its result, with what was used and recorded on the way. -/
def Sampler.run {P W α : Type} [Scale P W] (setting : Setting) :
    Sampler P α → Run P W → Except Halt α × Run P W
  | pure result, run =>
    match run.finish setting with
    | .ok run => (.ok result, run)
    | .error halt => (.error halt, run)
  | fail fault, run => (.error (.fault fault), run)
  | note record rest, run =>
    rest.run setting { run with records := record :: run.records }
  | choose address dist next, run =>
    match run.visit setting dist address with
    | (.ok value, run) => (next value).run setting run
    | (.error halt, run) => (.error halt, run)

end Deontic
