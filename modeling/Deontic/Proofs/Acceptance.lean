import Deontic.Proofs.Consumption
import Deontic.Proofs.Drawing

/-! Moves that a step accepts.  Of the draws from the unit interval a step accepts a move on those
below its acceptance (`accepts_eq`), so that it can accept a move exactly if the acceptance is
positive.  A step that accepts has weighed a proposal with a positive acceptance
(`Moves.exists_weighing`), and conversely a proposal that can be drawn and is weighed so leads to
its outcome (`Weighs.moves`). -/

namespace Deontic.Kernel

variable {α : Type} [BEq α] [Shown α]

/-- On some draws from the unit interval, a step moves from one trace to the other and accepts. -/
def Moves (kernel : Kernel ℚ LogWeight α) (check : Bool) (trace next : Trace ℚ LogWeight α) :
    Prop :=
  ∃ supply rest : Supply ℚ, UnitDraws supply.draws ∧
    (kernel.step check trace).Yields supply (next, true) rest

/-- The probability with which a move is accepted. -/
def acceptance (ratio : LogWeight) : ℚ := min 1 (ratio.mass : ℚ)

theorem acceptance_pos {ratio : LogWeight} : 0 < acceptance ratio ↔ ratio ≠ ⊥ := by
  rw [acceptance, lt_min_iff, NNRat.cast_pos, LogWeight.ne_bot_iff]
  exact (and_iff_right zero_lt_one).trans pos_iff_ne_zero

/-- Of the draws from the unit interval, those below the acceptance accept. -/
theorem accepts_eq {ratio : LogWeight} {draw : ℚ} (hdraw : draw < 1) :
    (accepts ratio draw : Except NumberFault Bool) = .ok (decide (draw < acceptance ratio)) := by
  by_cases hratio : 0 ≤ ratio
  · have hcertain : Scale.isAtLeastCertain ℚ ratio = true := decide_eq_true hratio
    have hmass : (1 : ℚ) ≤ ratio.mass := by exact_mod_cast LogWeight.le_iff.mp hratio
    rw [accepts, hcertain, if_pos rfl, acceptance, min_eq_left hmass, decide_eq_true hdraw]
  · have hcertain : Scale.isAtLeastCertain ℚ ratio = false := decide_eq_false hratio
    have hmass : (ratio.mass : ℚ) ≤ 1 := by
      exact_mod_cast le_of_not_ge fun hle => hratio (LogWeight.le_iff.mpr hle)
    rw [accepts, hcertain, if_neg Bool.false_ne_true, acceptance, min_eq_right hmass]
    rfl

omit [BEq α] [Shown α] in
/-- What a step accepts has been weighed, and has a positive acceptance. -/
theorem exists_of_conclude {trace next : Trace ℚ LogWeight α}
    {weighed : Option (Weighing ℚ LogWeight α)} {supply rest : Supply ℚ}
    (hdraws : UnitDraws supply.draws)
    (h : (conclude trace weighed).Yields supply (next, true) rest) :
    ∃ weighing, weighed = some weighing ∧ weighing.moved = next ∧
      0 < acceptance weighing.ratio := by
  cases weighed with
  | none =>
    obtain ⟨_, _, -, h⟩ := Act.yields_bind.mp h
    cases (Act.yields_pure.mp h).1
  | some weighing =>
    obtain ⟨draw, left, hdraw, hlast⟩ := Act.yields_bind.mp h
    rw [Act.yields_draw] at hdraw
    rw [hdraw] at hdraws
    obtain ⟨hnonneg, hone⟩ := hdraws draw List.mem_cons_self
    rw [accepts_eq hone] at hlast
    obtain ⟨accepted, _, haccepts, hlast⟩ := Act.yields_bind.mp hlast
    obtain ⟨haccepted, -⟩ := Act.yields_pure.mp haccepts
    obtain ⟨_, _, -, hlast⟩ := Act.yields_bind.mp hlast
    obtain ⟨hnext, rfl⟩ := Prod.mk.inj (Act.yields_pure.mp hlast).1
    exact ⟨weighing, rfl, hnext, hnonneg.trans_lt (of_decide_eq_true haccepted)⟩

omit [BEq α] [Shown α] in
/-- A move is accepted on the draws below its acceptance. -/
theorem exists_conclude (trace : Trace ℚ LogWeight α) {weighing : Weighing ℚ LogWeight α} {draw : ℚ}
    (hdraw : draw < 1) {accepted : Bool}
    (haccepted : decide (draw < acceptance weighing.ratio) = accepted) (draws : List ℚ)
    (records : List Record) :
    ∃ rest, (conclude trace (some weighing)).Yields ⟨draw :: draws, records⟩
      (if accepted then weighing.moved else trace, accepted) rest := by
  have hdrawn : (Act.draw : Act ℚ ℚ).Yields ⟨draw :: draws, records⟩ draw ⟨draws, records⟩ :=
    Act.yields_draw.mpr rfl
  have haccepts : Act.Yields
      (liftM (accepts weighing.ratio draw : Except NumberFault Bool) : Act ℚ Bool)
      ⟨draws, records⟩ accepted ⟨draws, records⟩ := by
    rw [accepts_eq hdraw, haccepted]
    exact Act.yields_pure.mpr ⟨rfl, rfl⟩
  exact ⟨_, Act.yields_bind.mpr ⟨draw, _, hdrawn, Act.yields_bind.mpr ⟨accepted, _, haccepts,
    Act.yields_bind.mpr ⟨(), _, Act.yields_tell.mpr rfl, Act.yields_pure.mpr ⟨rfl, rfl⟩⟩⟩⟩⟩

/-- A step that does not accept stays. -/
theorem eq_of_rejected {kernel : Kernel ℚ LogWeight α} {check : Bool}
    {trace next : Trace ℚ LogWeight α} {supply rest : Supply ℚ}
    (h : (kernel.step check trace).Yields supply (next, false) rest) : next = trace := by
  rw [step_eq_weigh] at h
  obtain ⟨_, _, -, h⟩ := Act.yields_bind.mp h
  obtain ⟨weighed, _, -, h⟩ := Act.yields_bind.mp h
  cases weighed with
  | none =>
    obtain ⟨_, _, -, h⟩ := Act.yields_bind.mp h
    exact (Prod.mk.inj (Act.yields_pure.mp h).1).1.symm
  | some weighing =>
    obtain ⟨_, _, -, h⟩ := Act.yields_bind.mp h
    obtain ⟨accepted, _, -, h⟩ := Act.yields_bind.mp h
    obtain ⟨_, _, -, h⟩ := Act.yields_bind.mp h
    obtain ⟨hnext, rfl⟩ := Prod.mk.inj (Act.yields_pure.mp h).1
    exact hnext.symm

/-- A step that accepts has proposed a move, and has weighed it with a positive acceptance. -/
theorem Moves.exists_weighing {kernel : Kernel ℚ LogWeight α}
    (hmove : ∀ trace proposed shown, (kernel.move trace proposed shown).Shortens) {check : Bool}
    {trace next : Trace ℚ LogWeight α} (h : kernel.Moves check trace next) :
    ∃ (forward : Trace ℚ LogWeight Proposal) (weighing : Weighing ℚ LogWeight α)
      (supply middle rest : Supply ℚ), UnitDraws supply.draws ∧
      (kernel.propose trace.result).simulate.Yields supply forward middle ∧
      (kernel.weigh check trace forward.choices forward.score forward.result.written).Yields
        middle (some weighing) rest ∧
      weighing.moved = next ∧ 0 < acceptance weighing.ratio := by
  obtain ⟨supply, last, hdraws, hstep⟩ := h
  rw [step_eq_weigh] at hstep
  obtain ⟨forward, middle, hforward, hstep⟩ := Act.yields_bind.mp hstep
  obtain ⟨weighed, rest, hweigh, hend⟩ := Act.yields_bind.mp hstep
  have hmiddle := (Program.shortens_simulate _).unitDraws hforward hdraws
  have hrest := (shortens_weigh hmove check trace forward.choices forward.score
    forward.result.written).unitDraws hweigh hmiddle
  obtain ⟨weighing, rfl, hnext, hpos⟩ := exists_of_conclude hrest hend
  exact ⟨forward, weighing, supply, middle, rest, hdraws, hforward, hweigh, hnext, hpos⟩

/-- A proposal that can be drawn moves the trace if it is weighed without a draw and has a positive
acceptance. -/
theorem Weighs.moves {kernel : Kernel ℚ LogWeight α} {trace moved : Trace ℚ LogWeight α}
    {forward : Trace ℚ LogWeight Proposal} {undo : Choices} {ratio : LogWeight}
    (h : kernel.Weighs trace forward.choices forward.score moved undo ratio) {way : Way ℚ}
    (hforward : forward.Along way) (hdrawable : ∀ visit ∈ way, visit.Drawable)
    (hproposal : forward.program = kernel.propose trace.result) (hratio : ratio ≠ ⊥)
    (check : Bool) : kernel.Moves check trace moved := by
  obtain ⟨draws, records, hdraws, hsimulate⟩ := hforward.exists_simulate hdrawable [0]
  rw [hproposal] at hsimulate
  obtain ⟨weighing, records', hweigh, rfl, -, rfl⟩ := h check forward.result.written ⟨[0], records⟩
  obtain ⟨rest, hend⟩ := exists_conclude trace zero_lt_one
    (decide_eq_true (acceptance_pos.mpr hratio)) [] records'
  refine ⟨⟨draws ++ [0], []⟩, rest, List.forall_mem_append.mpr ⟨hdraws, ?_⟩, ?_⟩
  · exact List.forall_mem_singleton.mpr ⟨le_rfl, zero_lt_one⟩
  · rw [step_eq_weigh]
    exact Act.yields_bind.mpr ⟨forward, _, hsimulate, Act.yields_bind.mpr ⟨_, _, hweigh, hend⟩⟩

end Deontic.Kernel
