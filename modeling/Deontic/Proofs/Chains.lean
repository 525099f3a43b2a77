import Deontic.Proofs.Acceptance
import Deontic.Proofs.Agreement
import Deontic.Proofs.Derivations

/-! Chains of replacements.  A step leaves a trace that its model can come to, whether it accepts or
not (`obtained_step`), and a chain is a run of accepted moves (`reaches_of_chain`).  So at the end
of a chain the tree derives from the root rule and stores the right extents, and its choices have
the score that is kept with them (`chain_invariant`). -/

namespace Deontic.Grammar

variable {grammar : Grammar ℚ}

theorem derives_of_model {trace : Trace ℚ LogWeight Tree} {way : Way ℚ} (h : trace.Along way)
    (hprogram : trace.program = grammar.model) : grammar.Derives grammar.root trace.result := by
  obtain ⟨whole, rfl, hgrown, hpossible⟩ := exists_grown_of_model h hprogram
  exact hgrown.derives hpossible

/-- A step from a trace of the model comes to one. -/
theorem obtained_step {check : Bool} {trace next : Trace ℚ LogWeight Tree} {accepted : Bool}
    {supply rest : Supply ℚ} (htrace : grammar.model.Obtained trace)
    (hdraws : UnitDraws supply.draws)
    (h : (grammar.kernel.step check trace).Yields supply (next, accepted) rest) :
    grammar.model.Obtained next ∧ UnitDraws rest.draws := by
  have hleft := (Kernel.shortens_step Trace.shortens_replace check trace).unitDraws h hdraws
  refine ⟨?_, hleft⟩
  rw [Kernel.step_eq_weigh] at h
  obtain ⟨forward, middle, hforward, h⟩ := Act.yields_bind.mp h
  obtain ⟨weighed, last, hweigh, hend⟩ := Act.yields_bind.mp h
  rcases Kernel.eq_of_conclude hend with rfl | ⟨weighing, rfl, rfl⟩
  · exact htrace
  · obtain ⟨-, left, _, _, hmove, -⟩ := Kernel.exists_of_weigh hweigh
    obtain ⟨discard, later, hupdate, -, -⟩ := Trace.yields_replace.mp hmove
    exact .update htrace ((Program.shortens_simulate _).unitDraws hforward hdraws) hupdate

/-- Accepted moves lead from a trace of the model to one. -/
theorem obtained_of_reaches {check : Bool} {trace last : Trace ℚ LogWeight Tree}
    (htrace : grammar.model.Obtained trace)
    (h : Relation.ReflTransGen (grammar.kernel.Moves check) trace last) :
    grammar.model.Obtained last := by
  induction h with
  | refl => exact htrace
  | tail _ hmoves ih =>
    obtain ⟨supply, rest, hdraws, hstep⟩ := hmoves
    exact (obtained_step ih hdraws hstep).1

/-- Steps make accepted moves or stay, and no more of them are accepted than are made. -/
theorem reaches_of_chainFrom {check : Bool} {steps first : Nat}
    {trace last : Trace ℚ LogWeight Tree} {before accepted : Nat} {supply rest : Supply ℚ}
    (h : (grammar.kernel.chainFrom check steps first trace before).Yields supply
      (last, accepted) rest) (hdraws : UnitDraws supply.draws) :
    Relation.ReflTransGen (grammar.kernel.Moves check) trace last ∧ accepted ≤ before + steps := by
  induction steps generalizing first trace before supply with
  | zero =>
    cases (Act.yields_pure.mp h).1
    exact ⟨.refl, le_rfl⟩
  | succ steps ih =>
    obtain ⟨⟨next, moved⟩, middle, hstep, h⟩ := Act.yields_bind.mp h
    obtain ⟨⟨⟩, left, htell, h⟩ := Act.yields_bind.mp h
    obtain rfl := Act.yields_tell.mp htell
    have hleft := (Kernel.shortens_step Trace.shortens_replace check trace).unitDraws hstep hdraws
    obtain ⟨hlast, hcount⟩ := ih h hleft
    cases moved with
    | true =>
      refine ⟨.head ⟨supply, middle, hdraws, hstep⟩ hlast, ?_⟩
      rw [if_pos rfl] at hcount
      omega
    | false =>
      obtain rfl := Kernel.eq_of_rejected hstep
      rw [if_neg Bool.false_ne_true] at hcount
      exact ⟨hlast, hcount.trans (by omega)⟩

/-- A chain makes accepted moves, at most as many as it has steps. -/
theorem reaches_of_chain {check : Bool} {steps : Int} {trace last : Trace ℚ LogWeight Tree}
    {accepted : Nat} {supply rest : Supply ℚ}
    (h : (grammar.kernel.chain steps check trace).Yields supply (last, accepted) rest)
    (hdraws : UnitDraws supply.draws) :
    Relation.ReflTransGen (grammar.kernel.Moves check) trace last ∧ accepted ≤ steps.toNat := by
  obtain ⟨⟨last', accepted'⟩, _, hsteps, hend⟩ := Act.yields_bind.mp h
  obtain ⟨⟨⟩, _, -, hend⟩ := Act.yields_bind.mp hend
  cases (Act.yields_pure.mp hend).1
  obtain ⟨hreaches, hcount⟩ := reaches_of_chainFrom hsteps hdraws
  exact ⟨hreaches, hcount.trans_eq (Nat.zero_add _)⟩

/-- **What a chain keeps.**  If a chain from a trace of the model comes to an end, the checks of
stored extents accept its last tree, that tree derives from the root rule by words and texts of
positive weight, and assessing its choices gives exactly the kept score, added up along the way of
the trace, and that tree.  At most as many steps are accepted as are made. -/
theorem chain_invariant (hvalid : grammar.validate = .ok ()) {trace last : Trace ℚ LogWeight Tree}
    (htrace : grammar.model.Obtained trace) {steps : Int} {check : Bool} {accepted : Nat}
    {supply rest : Supply ℚ} (hdraws : UnitDraws supply.draws)
    (h : (grammar.kernel.chain steps check trace).Yields supply (last, accepted) rest) :
    last.result.checkStored = .ok () ∧ grammar.Derives grammar.root last.result ∧
      (∃ way : Way ℚ, last.Along way ∧ last.score = way.score) ∧
      (∀ later : Supply ℚ, ∃ records, (grammar.model.assess last.choices).Yields later
        (last.score, some last.result) ⟨later.draws, records⟩) ∧
      accepted ≤ steps.toNat := by
  obtain ⟨hreaches, hcount⟩ := reaches_of_chain h hdraws
  have hlast := obtained_of_reaches htrace hreaches
  obtain ⟨way, halong⟩ :=
    hlast.exists_along (fair_model (weighed_of_validate hvalid)) grammar.steady_model
  have hderives := derives_of_model halong hlast.program_eq
  refine ⟨Tree.checkStored_eq_ok.mpr hderives.sound, hderives, ⟨way, halong, halong.scored⟩,
    fun later => ?_, hcount⟩
  rw [← hlast.program_eq]
  exact halong.assess (Choices.get?_flatten halong.tidied) later

/-- Two steps from an obligation for two colours, the second of them to a norm. -/
theorem chain_invariant_uneven :
    ∃ (trace last : Trace ℚ LogWeight Tree) (accepted : Nat) (supply rest : Supply ℚ),
      UnitDraws supply.draws ∧ uneven.model.Obtained trace ∧
      (uneven.kernel.chain 2 true trace).Yields supply (last, accepted) rest ∧
      last.result.checkStored = .ok () ∧ uneven.Derives "NORMS" last.result ∧ accepted ≤ 2 := by
  have hunit : UnitDraws ([1 / 2, 0, 1 / 3, 0, 2 / 3] : List ℚ) := by decide +kernel
  have hunit' :
      UnitDraws ([0, 0, 0, 0, 1 / 2, 0, 1 / 2, 0, 1 / 2, 0, 0, 0, 1 / 2, 0] : List ℚ) := by
    decide +kernel
  have hruns : uneven.model.simulate.any ⟨[1 / 2, 0, 1 / 3, 0, 2 / 3], []⟩
      (fun (trace : Trace ℚ LogWeight Tree) _ => (uneven.kernel.chain 2 true trace).any
        ⟨[0, 0, 0, 0, 1 / 2, 0, 1 / 2, 0, 1 / 2, 0, 0, 0, 1 / 2, 0], []⟩
          fun _ _ => true) = true := by
    decide +kernel
  obtain ⟨trace, _, htrace, hruns⟩ := Act.exists_yields hruns
  obtain ⟨⟨last, accepted⟩, _, hchain, -⟩ := Act.exists_yields hruns
  have hobtained : uneven.model.Obtained trace := .simulate hunit htrace
  obtain ⟨hstored, hderives, -, -, hcount⟩ :=
    chain_invariant validate_uneven hobtained hunit' hchain
  exact ⟨_, _, _, _, _, hunit', hobtained, hchain, hstored, hderives, hcount⟩

end Deontic.Grammar
