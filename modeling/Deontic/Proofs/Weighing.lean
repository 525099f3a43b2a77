import Deontic.Metropolis
import Deontic.Proofs.Execution

/-! What a step weighs.  `Kernel.weigh` is the part of a step between the proposal and the draw: the
move, its check, and the score of the proposal that undoes it.  A step proposes, weighs and then
decides (`step_eq_weigh`), so the log-ratio of a weighing is the one by which the step accepts. -/

namespace Deontic

/-- A move with the scores of the proposals that lead forth and back. -/
structure Weighing (P W α : Type) where
  moved : Trace P W α
  undo : Choices
  weight : W
  forth : W
  back : W

variable {P W α : Type} [Scale P W] [BEq α] [Shown α]

/-- The log-ratio by which a step accepts. -/
def Weighing.ratio (weighing : Weighing P W α) : W :=
  Scale.plus P (Scale.minus P weighing.weight weighing.forth) weighing.back

namespace Kernel

/-- The move of a trace by the choices of a proposal, weighed unless it is impossible. -/
def weigh (kernel : Kernel P W α) (check : Bool) (trace : Trace P W α) (proposed : Choices)
    (forth : W) (shown : String) : Act P (Option (Weighing P W α)) := do
  let (moved, undo, weight) ← kernel.move trace proposed shown
  match moved with
  | none => return none
  | some moved =>
    if Scale.isImpossible P weight then return none
    if check then kernel.move.checkUndone trace proposed shown moved undo weight
    let (back, _) ← (kernel.propose moved.result).assess undo
    return some ⟨moved, undo, weight, forth, back⟩

section Yields

variable {kernel : Kernel P W α} {trace moved : Trace P W α} {proposed undo : Choices}
  {shown : String} {weight : W} {supply : Supply P}

theorem yields_checkUndone {back : Trace P W α} {choices : Choices} {backWeight : W}
    {rest : Supply P}
    (hmove : (kernel.move moved undo shown).Yields supply (some back, choices, backWeight) rest)
    (hresult : (back.result == trace.result) = true) (hchoices : (choices == proposed) = true)
    (hweight : Scale.close P backWeight (Scale.negate P weight) = true) :
    (kernel.move.checkUndone trace proposed shown moved undo weight).Yields supply () rest := by
  refine Act.yields_bind.mpr ⟨_, _, hmove, ?_⟩
  have hresult : (back.result != trace.result) = false := by rw [bne, hresult]; rfl
  have hchoices : (choices != proposed) = false := by rw [bne, hchoices]; rfl
  simp only [hresult, hchoices, hweight, Bool.false_eq_true, Bool.not_true, if_false]
  exact Act.yields_pure.mpr ⟨rfl, rfl⟩

theorem yields_weigh {check : Bool} {forth back : W} {outcome : Option Proposal}
    {first second rest : Supply P}
    (hmove : (kernel.move trace proposed shown).Yields supply (some moved, undo, weight) first)
    (hpossible : Scale.isImpossible P weight = false)
    (hcheck : if check then
        (kernel.move.checkUndone trace proposed shown moved undo weight).Yields first () second
      else first = second)
    (hassess : ((kernel.propose moved.result).assess undo).Yields second (back, outcome) rest) :
    (kernel.weigh check trace proposed forth shown).Yields supply
      (some ⟨moved, undo, weight, forth, back⟩) rest := by
  refine Act.yields_bind.mpr ⟨_, _, hmove, ?_⟩
  dsimp only
  rw [hpossible]
  cases check with
  | true =>
    refine Act.yields_bind.mpr ⟨(), second, hcheck, ?_⟩
    exact Act.yields_bind.mpr ⟨_, _, hassess, Act.yields_pure.mpr ⟨rfl, rfl⟩⟩
  | false =>
    obtain rfl := hcheck
    exact Act.yields_bind.mpr ⟨_, _, hassess, Act.yields_pure.mpr ⟨rfl, rfl⟩⟩

theorem yields_weigh_none {check : Bool} {forth : W} {rest : Supply P}
    (hmove : (kernel.move trace proposed shown).Yields supply (none, undo, weight) rest) :
    (kernel.weigh check trace proposed forth shown).Yields supply none rest :=
  Act.yields_bind.mpr ⟨_, _, hmove, Act.yields_pure.mpr ⟨rfl, rfl⟩⟩

end Yields

/-- The end of a step. -/
def conclude (trace : Trace P W α) : Option (Weighing P W α) → Act P (Trace P W α × Bool)
  | none => do
    Act.tell .impossible
    return (trace, false)
  | some weighing => do
    let draw ← Act.draw
    let accepted ← (accepts weighing.ratio draw : Except NumberFault Bool)
    Act.tell (.weighed (Scale.weightDouble P weighing.weight) (Scale.weightDouble P weighing.forth)
      (Scale.weightDouble P weighing.back) (Scale.weightDouble P weighing.ratio) accepted)
    return (if accepted then weighing.moved else trace, accepted)

/-- What is weighed has been moved, and the choices that undo the move have been scored. -/
theorem exists_of_weigh {kernel : Kernel P W α} {check : Bool} {trace : Trace P W α}
    {proposed : Choices} {forth : W} {shown : String} {weighing : Weighing P W α}
    {supply rest : Supply P}
    (h : (kernel.weigh check trace proposed forth shown).Yields supply (some weighing) rest) :
    weighing.forth = forth ∧ ∃ left middle outcome,
      (kernel.move trace proposed shown).Yields supply
          (some weighing.moved, weighing.undo, weighing.weight) left ∧
        ((kernel.propose weighing.moved.result).assess weighing.undo).Yields middle
          (weighing.back, outcome) rest := by
  obtain ⟨⟨moved, undo, weight⟩, left, hmove, h⟩ := Act.yields_bind.mp h
  cases moved with
  | none => cases (Act.yields_pure.mp h).1
  | some moved =>
    dsimp only at h
    split at h
    · cases (Act.yields_pure.mp h).1
    have hscored {middle : Supply P} (h : (do
        let (back, _) ← (kernel.propose moved.result).assess undo
        return some (⟨moved, undo, weight, forth, back⟩ : Weighing P W α)).Yields middle
          (some weighing) rest) :
        ∃ back outcome, weighing = ⟨moved, undo, weight, forth, back⟩ ∧
          ((kernel.propose moved.result).assess undo).Yields middle (back, outcome) rest := by
      obtain ⟨⟨back, outcome⟩, _, hassess, h⟩ := Act.yields_bind.mp h
      obtain ⟨hsame, rfl⟩ := Act.yields_pure.mp h
      exact ⟨back, outcome, (Option.some.inj hsame).symm, hassess⟩
    split at h
    · obtain ⟨⟨⟩, middle, -, h⟩ := Act.yields_bind.mp h
      obtain ⟨back, outcome, rfl, hassess⟩ := hscored h
      exact ⟨rfl, left, middle, outcome, hmove, hassess⟩
    · obtain ⟨back, outcome, rfl, hassess⟩ := hscored h
      exact ⟨rfl, left, left, outcome, hmove, hassess⟩

omit [BEq α] [Shown α] in
/-- A step ends at the trace it began with, or at the one it has weighed. -/
theorem eq_of_conclude {trace next : Trace P W α} {weighed : Option (Weighing P W α)}
    {accepted : Bool} {supply rest : Supply P}
    (h : (conclude trace weighed).Yields supply (next, accepted) rest) :
    next = trace ∨ ∃ weighing, weighed = some weighing ∧ next = weighing.moved := by
  cases weighed with
  | none =>
    obtain ⟨_, _, -, h⟩ := Act.yields_bind.mp h
    exact .inl (Prod.mk.inj (Act.yields_pure.mp h).1).1.symm
  | some weighing =>
    obtain ⟨_, _, -, h⟩ := Act.yields_bind.mp h
    obtain ⟨accepted, _, -, h⟩ := Act.yields_bind.mp h
    obtain ⟨_, _, -, h⟩ := Act.yields_bind.mp h
    obtain rfl := (Prod.mk.inj (Act.yields_pure.mp h).1).1
    cases accepted with
    | true => exact .inr ⟨weighing, rfl, rfl⟩
    | false => exact .inl rfl

/-- Whatever is checked and shown, the step weighs a move to `moved` that `undo` takes back, and
takes no draw before it decides. -/
def Weighs (kernel : Kernel P W α) (trace : Trace P W α) (proposed : Choices) (forth : W)
    (moved : Trace P W α) (undo : Choices) (ratio : W) : Prop :=
  ∀ (check : Bool) (shown : String) (supply : Supply P), ∃ weighing records,
    (kernel.weigh check trace proposed forth shown).Yields supply (some weighing)
        ⟨supply.draws, records⟩ ∧
      weighing.moved = moved ∧ (weighing.undo == undo) = true ∧ weighing.ratio = ratio

/-- A step proposes, weighs and decides. -/
theorem step_eq_weigh (kernel : Kernel P W α) (check : Bool) (trace : Trace P W α) :
    kernel.step check trace = (do
      let forward ← (kernel.propose trace.result).simulate
      conclude trace
        (← kernel.weigh check trace forward.choices forward.score forward.result.written)) := by
  unfold step weigh
  refine bind_congr fun forward => ?_
  rw [bind_assoc]
  refine bind_congr fun ⟨moved, undo, weight⟩ => ?_
  cases moved with
  | none => simp only [pure_bind]; rfl
  | some moved =>
    dsimp only
    cases Scale.isImpossible P weight with
    | true => simp only [if_true, pure_bind]; rfl
    | false =>
      cases check with
      | true =>
        simp only [Bool.false_eq_true, if_false, if_true, bind_assoc, pure_bind]
        rfl
      | false =>
        simp only [Bool.false_eq_true, if_false, bind_assoc, pure_bind]
        rfl

end Kernel

end Deontic
