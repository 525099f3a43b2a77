import Deontic.Proofs.Chains
import Deontic.Proofs.Return

/-! Chains that fail only for want of draws.  In a grammar that passes its check and is even, a step
from a trace of the model proposes or runs out of draws, weighs what is proposed without a draw, and
decides on one more draw (`Ready.ends_step`).  So nothing else can stop a chain, whether its moves
are checked or not (`chain_ends`). -/

namespace Deontic

namespace Kernel

theorem exists_accepts (ratio : LogWeight) (draw : ℚ) :
    ∃ accepted, (accepts ratio draw : Except NumberFault Bool) = .ok accepted := by
  rw [accepts]
  split
  · exact ⟨true, rfl⟩
  · exact ⟨_, rfl⟩

/-- A decision fails only for want of a draw. -/
theorem ends_conclude {α : Type} (trace : Trace ℚ LogWeight α)
    (weighed : Option (Weighing ℚ LogWeight α)) (supply : Supply ℚ) :
    (conclude trace weighed).Ends supply := by
  cases weighed with
  | none => exact (Act.ends_tell _ _).bind fun _ _ _ => Act.ends_pure _ _
  | some weighing =>
    refine (Act.ends_draw supply).bind fun draw rest _ => ?_
    obtain ⟨accepted, haccepts⟩ := exists_accepts weighing.ratio draw
    rw [haccepts]
    refine Act.Ends.bind (Act.ends_pure accepted rest) fun _ _ _ => ?_
    exact (Act.ends_tell _ _).bind fun _ _ _ => Act.ends_pure _ _

end Kernel

namespace Grammar

variable {grammar : Grammar ℚ}

/-- A step from a trace of the model ends, or the draws run out. -/
theorem Ready.ends_step (h : grammar.Ready) (heven : grammar.Even) (hnames : grammar.Distinguished)
    (hweighed : grammar.Weighed) {trace : Trace ℚ LogWeight Tree}
    (htrace : grammar.model.Obtained trace)
    (check : Bool) {supply : Supply ℚ} (hdraws : UnitDraws supply.draws) :
    (grammar.kernel.step check trace).Ends supply := by
  obtain ⟨way, halong⟩ := htrace.exists_along (fair_model hweighed) grammar.steady_model
  have hderives := derives_of_model halong htrace.program_eq
  rw [Kernel.step_eq_weigh]
  refine (h.ends_proposal hnames hderives hdraws).bind fun forward rest hforward => ?_
  obtain ⟨hproposal, way', halong', hdrawable⟩ :=
    (Program.simulates_iff (fair_proposal hweighed trace.result)
      (grammar.steady_proposal trace.result)).mp ⟨supply, rest, hdraws, hforward⟩
  obtain ⟨weighed, records, hweigh⟩ := h.yields_weigh heven hnames halong htrace.program_eq halong'
    hdrawable hproposal check forward.result.written rest
  exact hweigh.ends.bind fun weighed left _ => Kernel.ends_conclude trace weighed left

/-- Steps from a trace of the model end, or the draws run out. -/
theorem Ready.ends_chainFrom (h : grammar.Ready) (heven : grammar.Even)
    (hnames : grammar.Distinguished) (hweighed : grammar.Weighed) {trace : Trace ℚ LogWeight Tree}
    (htrace : grammar.model.Obtained trace) (check : Bool) (steps first accepted : Nat)
    {supply : Supply ℚ} (hdraws : UnitDraws supply.draws) :
    (grammar.kernel.chainFrom check steps first trace accepted).Ends supply := by
  induction steps generalizing first trace accepted supply with
  | zero => exact Act.ends_pure _ _
  | succ steps ih =>
    refine (h.ends_step heven hnames hweighed htrace check hdraws).bind
      fun ⟨next, moved⟩ left hstep => ?_
    obtain ⟨hnext, hleft⟩ := obtained_step htrace hdraws hstep
    refine (Act.ends_tell _ _).bind fun _ rest htell => ?_
    obtain rfl := Act.yields_tell.mp htell
    exact ih hnext _ _ hleft

/-- **A chain does not fail.**  In a validated grammar whose branches have as many parts under one
rule as under another, a chain from a trace of the model comes to its end unless the draws run out.
No proposal, move, check or score on the way fails. -/
theorem chain_ends (hvalid : grammar.validate = .ok ()) (hstandard : grammar.vocabulary = .standard)
    (heven : grammar.Even) {trace : Trace ℚ LogWeight Tree} (htrace : grammar.model.Obtained trace)
    (steps : Int) (check : Bool) {supply : Supply ℚ} (hdraws : UnitDraws supply.draws) :
    (grammar.kernel.chain steps check trace).Ends supply := by
  have hsteps := (ready_of_validate hvalid hstandard).ends_chainFrom heven
    (distinguished_of_validate hvalid hstandard) (weighed_of_validate hvalid) htrace check
    steps.toNat 0 0 hdraws
  refine hsteps.bind fun ⟨last, accepted⟩ _ _ => ?_
  exact (Act.ends_tell _ _).bind fun _ _ _ => Act.ends_pure _ _

/-- A grammar in which obligations have one part, under one rule a colour and under another a zone.
-/
def mixed : Grammar ℚ where
  rules := .ofList
    [("NORMS", .ofList [("Norm", ["DUTY"]), ("Obl", ["COLOUR"])]),
     ("DUTY", .ofList [("Obl", ["ZONE"])]), ("COLOUR", .ofList [("Colour", [])]),
     ("ZONE", .ofList [("Zone", [])])]
  wordWeights := .ofList
    [("NORMS", .ofList [("Norm", 1 / 2), ("Obl", 1 / 2)]), ("DUTY", .ofList [("Obl", 1)]),
     ("COLOUR", .ofList [("Colour", 1)]), ("ZONE", .ofList [("Zone", 1)])]
  textWeights := .ofList
    [("Colour", .ofList [("red", 1 / 3), ("blue", 2 / 3)]), ("Zone", .ofList [("1", 1)])]
  root := "NORMS"
  vocabulary := .standard

theorem validate_mixed : mixed.validate = .ok () := validate_of_isOk (by decide +kernel)

theorem even_mixed : mixed.Even := even_of_entries (by decide +kernel)

/-- Below a norm an obligation for a colour is proposed, which is impossible there.  Then the norm
is moved to such an obligation, and no draw is left for a third step. -/
theorem chain_ends_mixed :
    ∃ (trace last : Trace ℚ LogWeight Tree) (supply rest : Supply ℚ), mixed.Even ∧
      mixed.model.Obtained trace ∧ UnitDraws supply.draws ∧
      (mixed.kernel.chain 2 true trace).Yields supply (last, 1) rest ∧ rest.draws = [] ∧
      (mixed.kernel.chain 3 true trace).Ends supply := by
  have hunit : UnitDraws ([0, 0, 0, 0] : List ℚ) := by decide +kernel
  have hunit' : UnitDraws ([1 / 2, 0, 0, 1 / 2, 0, 0, 0, 1 / 2, 0, 0, 0] : List ℚ) := by
    decide +kernel
  have hruns : mixed.model.simulate.any ⟨[0, 0, 0, 0], []⟩
      (fun (trace : Trace ℚ LogWeight Tree) _ => (mixed.kernel.chain 2 true trace).any
        ⟨[1 / 2, 0, 0, 1 / 2, 0, 0, 0, 1 / 2, 0, 0, 0], []⟩ fun last rest =>
          last.2 == 1 && rest.draws == []) = true := by
    decide +kernel
  obtain ⟨trace, _, htrace, hruns⟩ := Act.exists_yields hruns
  obtain ⟨⟨last, accepted⟩, _, hchain, hall⟩ := Act.exists_yields hruns
  obtain ⟨hcount, hdraws⟩ := Bool.and_eq_true_iff.mp hall
  obtain rfl : accepted = 1 := eq_of_beq hcount
  have hobtained : mixed.model.Obtained trace := .simulate hunit htrace
  exact ⟨trace, last, _, _, even_mixed, hobtained, hunit', hchain, eq_of_beq hdraws,
    chain_ends validate_mixed rfl even_mixed hobtained 3 true hunit'⟩

end Grammar

end Deontic
