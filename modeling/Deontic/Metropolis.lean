import Deontic.Move

/-! Metropolis-Hastings steps with a proposal that a second proposal undoes.  A step runs the
proposal, applies the move, scores the choices that would undo it, and accepts with the probability
of the ratio.  A step can also apply the move to its own outcome and compare with where it began.
The results that are moved may be of any type that can be compared and shown. -/

namespace Deontic

/-- Results that records and messages show, if all integers in them can be written. -/
class Shown (α : Type) where
  shown : α → String
  isWritable : α → Bool

instance : Shown Tree := ⟨Tree.pretty, fun _ => true⟩

/-- A move: from a trace and the choices of a proposal to a trace, the choices of the proposal that
undoes it, and a log-weight.  The text shows the proposal in records. -/
abbrev Involution (P W α : Type) :=
  Trace P W α → Choices → String → Act P (Option (Trace P W α) × Choices × W)

/-- How results are moved: the program that proposes a replacement in a result, and the move that
carries it out. -/
structure Kernel (P W α : Type) where
  propose : α → Program P Proposal
  move : Involution P W α

namespace Involution

variable {P W α : Type} [Scale P W]

def standard : Involution P W α := Trace.replace

def stateFault [Shown α] (before : α) (after : Option α) : Fault :=
  if Shown.isWritable before && after.all Shown.isWritable then
    .undo (.state (Shown.shown before) (after.map Shown.shown))
  else .tooLongToWrite

/-- Applies a move to its own outcome, and fails unless that leads back. -/
def checkUndone [BEq α] [Shown α] (move : Involution P W α) (trace : Trace P W α)
    (forward : Choices) (shown : String) (moved : Trace P W α) (undo : Choices) (weight : W) :
    Act P Unit := do
  let (back, choices, backWeight) ← move moved undo shown
  match back with
  | none => throw (stateFault trace.result none)
  | some back =>
    if back.result != trace.result then throw (stateFault trace.result (some back.result))
  if choices != forward then throw (.undo (.choices forward choices))
  if !Scale.close P backWeight (Scale.negate P weight) then
    throw (.undo (.weight (Scale.weightDouble P backWeight) (Scale.weightDouble P weight)))

end Involution

namespace Kernel

variable {P W α : Type} [Scale P W]

def accepts (ratio : W) (draw : P) : Except NumberFault Bool :=
  if Scale.isAtLeastCertain P ratio then .ok true
  else do return Scale.lt draw (← (Scale.exp ratio : Except NumberFault P))

variable [BEq α] [Shown α]

/-- One step.  A move that leads nowhere is rejected before a draw is taken. -/
def step (kernel : Kernel P W α) (check : Bool) (trace : Trace P W α) :
    Act P (Trace P W α × Bool) := do
  let forward : Trace P W Proposal ← (kernel.propose trace.result).simulate
  let shown := forward.result.written
  let (moved, undo, weight) ← kernel.move trace forward.choices shown
  match moved with
  | none =>
    Act.tell .impossible
    return (trace, false)
  | some moved =>
    if Scale.isImpossible P weight then
      Act.tell .impossible
      return (trace, false)
    if check then kernel.move.checkUndone trace forward.choices shown moved undo weight
    let (backScore, _) ← (kernel.propose moved.result).assess undo
    let ratio := Scale.plus P (Scale.minus P weight forward.score) backScore
    let draw ← Act.draw
    let accepted ← (accepts ratio draw : Except NumberFault Bool)
    Act.tell (.weighed (Scale.weightDouble P weight) (Scale.weightDouble P forward.score)
      (Scale.weightDouble P backScore) (Scale.weightDouble P ratio) accepted)
    return (if accepted then moved else trace, accepted)

/-- Steps from the one numbered `first` on, with the number of those accepted so far. -/
def chainFrom (kernel : Kernel P W α) (check : Bool) :
    Nat → Nat → Trace P W α → Nat → Act P (Trace P W α × Nat)
  | 0, _, trace, accepted => return (trace, accepted)
  | steps + 1, first, trace, accepted => do
    let (trace, moved) ← kernel.step check trace
    Act.tell (.stepped first (Shown.shown trace.result) moved)
    kernel.chainFrom check steps (first + 1) trace (if moved then accepted + 1 else accepted)

/-- A number of steps, with the last trace and the number of steps accepted. -/
def chain (kernel : Kernel P W α) (steps : Int) (check : Bool) (trace : Trace P W α) :
    Act P (Trace P W α × Nat) := do
  let (trace, accepted) ← kernel.chainFrom check steps.toNat 0 trace 0
  Act.tell (.finished accepted steps)
  return (trace, accepted)

end Kernel

/-- The kernel that replaces parts of trees by what a grammar grows. -/
def Grammar.kernel {P W : Type} [Scale P W] (grammar : Grammar P) : Kernel P W Tree :=
  ⟨grammar.proposal, Involution.standard⟩

end Deontic
