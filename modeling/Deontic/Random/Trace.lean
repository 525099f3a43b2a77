import Deontic.Random.Run

/-! Traces of random programs, and the four ways to run one: on draws alone, on given values
completed by draws, on given values alone, and again with some values replaced.  The draws form one
supply, from which each run takes what it needs and to which it leaves the rest, also
when it fails. -/

namespace Deontic

/-- The draws that are left and the records so far, the last first. -/
structure Supply (P : Type) where
  draws : List P
  records : List Record
  deriving Inhabited

/-- A computation that takes draws, leaves records, and may fail. -/
abbrev Act (P : Type) := ExceptT Fault (StateM (Supply P))

namespace Act

variable {P α : Type}

def tell (record : Record) : Act P Unit :=
  modify fun supply => { supply with records := record :: supply.records }

def draw : Act P P := do
  match (← get).draws with
  | [] => throw (.supply .exhausted)
  | draw :: rest =>
    modify fun supply => { supply with draws := rest }
    return draw

def ofExcept (result : Except Fault α) : Act P α :=
  match result with
  | .ok result => pure result
  | .error fault => throw fault

end Act

instance {P ε : Type} [MonadLift (Except ε) (Except Fault)] : MonadLift (Except ε) (Act P) where
  monadLift result := Act.ofExcept (MonadLift.monadLift result : Except Fault _)

instance {P : Type} : MonadLift (Except Fault) (Act P) := ⟨Act.ofExcept⟩

/-- A complete run: the program, its result, its choices and their log-density. -/
structure Trace (P W α : Type) where
  program : Program P α
  result : α
  choices : Choices
  score : W

namespace Program

variable {P W α : Type} [Scale P W]

/-- Runs a program on the supply.  No run makes more choices than there are values and draws, and
each nested call makes one, so that many calls and one more are enough. -/
def execute (program : Program P α) (setting : Setting) :
    Act P (Except Path α × Run P W) := do
  let supply ← get
  let calls := setting.size + supply.draws.length + 1
  let (outcome, run) := (program calls).run setting (Run.start supply.draws supply.records)
  set (⟨run.draws, run.records⟩ : Supply P)
  match outcome with
  | .ok result => return (.ok result, run)
  | .error (.impossible address) => return (.error address, run)
  | .error (.fault fault) => throw fault

def toTrace (program : Program P α) (result : α) (run : Run P W) : Trace P W α :=
  ⟨program, result, run.choices, run.score⟩

def simulate (program : Program P α) : Act P (Trace P W α) := do
  match ← program.execute .free with
  | (.ok result, run) => return program.toTrace result run
  | (.error address, _) => throw (.execution (.ruledOut address))

/-- A run with values forced at some addresses, and the log-density of the forced values.  There is
no trace if one of them has density zero. -/
def generate (program : Program P α) (constraints : Choices) :
    Act P (Option (Trace P W α) × W) := do
  match ← program.execute (.forcing constraints) with
  | (.ok result, run) => return (some (program.toTrace result run), run.forced)
  | (.error _, _) => return (none, Scale.impossible P)

/-- The log-density of given choices, and the result they lead to. -/
def assess (program : Program P α) (choices : Choices) : Act P (W × Option α) := do
  match ← (program.execute (.fixing choices) : Act P (Except Path α × Run P W)) with
  | (.ok result, run) => return (run.score, some result)
  | (.error _, _) => return (Scale.impossible P, none)

end Program

namespace Trace

variable {P W α : Type} [Scale P W]

/-- The run again, with some values replaced, the others kept, and new ones drawn where the program
takes a new way.  Gives the log-weight of the change and the values that were replaced or are no
longer visited. -/
def update (trace : Trace P W α) (edits : Choices) :
    Act P (Option (Trace P W α) × W × Choices) := do
  match ← trace.program.execute (.revising edits trace.choices) with
  | (.ok result, run) =>
    let weight := Scale.minus P (Scale.minus P run.score trace.score) run.fresh
    return (some (trace.program.toTrace result run), weight, run.discard)
  | (.error _, run) => return (none, Scale.impossible P, run.discard)

end Trace

end Deontic
