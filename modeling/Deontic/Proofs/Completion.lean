import Deontic.Proofs.Proposals

/-! Growth on draws alone.  In a grammar that passes its check, growth under a rule lasts for as
many choices as there are draws, and its addresses do not stand in each other's way
(`orderly_growth`).  So it fails when the draws have run out and at no other time, and a tree that
it comes to derives from the rule (`growth_completes`). -/

namespace Deontic.Grammar

variable {grammar : Grammar ℚ}

theorem orderly_growth (hnames : grammar.Distinguished) {index : Int} (hindex : 1 ≤ index)
    (rule : String) (calls : Nat) : (grammar.growth index rule calls).Orderly :=
  ⟨0, fun _ _ _ _ hreaches => (Begun.of_reaches hreaches).orderly hnames hindex⟩

/-- A tree that is grown on draws derives from the rule. -/
theorem derives_of_growth (hweighed : grammar.Weighed) {index : Int} {rule : String}
    {trace : Trace ℚ LogWeight Tree} {supply rest : Supply ℚ} (hdraws : UnitDraws supply.draws)
    (h : (grammar.growth index rule).simulate.Yields supply trace rest) :
    grammar.Derives rule trace.result := by
  obtain ⟨result, run, hexecute, rfl⟩ := Program.yields_simulate.mp h
  obtain ⟨way, _, hcompletes, -, -⟩ := Program.exists_way_of_yields hexecute
  have hpossible := hcompletes.possible (fun calls => fair_grow hweighed calls index rule) hdraws
  exact (Grown.of_follows hcompletes.follows).derives hpossible

/-- **A validated grammar grows.**  Under each of its rules, at every position and on all draws from
the unit interval, growth comes to a tree that derives from the rule by words and texts of positive
weight, or it takes all draws and finds no further one.  So nothing that it looks up is missing, and
no weights that it draws from are refused. -/
theorem growth_completes (hvalid : grammar.validate = .ok ())
    (hstandard : grammar.vocabulary = .standard) {rule : String}
    (hrule : grammar.rules.contains rule = true) {index : Int} (hindex : 1 ≤ index)
    {supply : Supply ℚ} (hdraws : UnitDraws supply.draws) :
    (∃ (trace : Trace ℚ LogWeight Tree) (rest : Supply ℚ),
      (grammar.growth index rule).simulate.Yields supply trace rest ∧
        grammar.Derives rule trace.result) ∨
    ∃ records, ((grammar.growth index rule).simulate : Act ℚ (Trace ℚ LogWeight Tree)).run.run
      supply = (.error (.supply .exhausted), ⟨[], records⟩) := by
  have hlasts := (ready_of_validate hvalid hstandard).lasts_grow
    (supply.draws.length + 1) index hrule
  have horderly := orderly_growth (distinguished_of_validate hvalid hstandard) hindex rule
    (supply.draws.length + 1)
  cases hrun : ((grammar.growth index rule).simulate : Act ℚ (Trace ℚ LogWeight Tree)).run.run
    supply with
  | mk outcome rest =>
    cases outcome with
    | ok trace =>
      exact .inl ⟨trace, rest, hrun, derives_of_growth (weighed_of_validate hvalid) hdraws hrun⟩
    | error fault =>
      obtain ⟨run, hfails, hrest⟩ := Program.run_of_simulate_error hrun
      obtain ⟨rfl, hnone⟩ := hlasts.exhausted horderly hdraws hfails
      obtain ⟨draws, records⟩ := rest
      obtain rfl : draws = [] := hrest.trans hnone
      exact .inr ⟨records, rfl⟩

/-- At the right part of the root, two draws make a colour, and one draw does not. -/
theorem growth_completes_uneven :
    UnitDraws [(0 : ℚ), 1 / 2] ∧
    (∃ (trace : Trace ℚ LogWeight Tree) (rest : Supply ℚ),
      (uneven.growth 3 "COLOUR").simulate.Yields ⟨[0, 1 / 2], []⟩ trace rest ∧
        uneven.Derives "COLOUR" trace.result) ∧
    ∃ records, ((uneven.growth 3 "COLOUR").simulate : Act ℚ (Trace ℚ LogWeight Tree)).run.run
      ⟨[0], []⟩ = (.error (.supply .exhausted), ⟨[], records⟩) := by
  have hunit : UnitDraws [(0 : ℚ), 1 / 2] := by decide +kernel
  have hrule : uneven.rules.contains "COLOUR" = true := by decide +kernel
  have hgrown : (uneven.growth 3 "COLOUR").simulate.any ⟨[0, 1 / 2], []⟩
      (fun (_ : Trace ℚ LogWeight Tree) _ => true) = true := by decide +kernel
  have hshort : (uneven.growth 3 "COLOUR").simulate.any ⟨[0], []⟩
      (fun (_ : Trace ℚ LogWeight Tree) _ => true) = false := by decide +kernel
  refine ⟨hunit, ?_, ?_⟩
  · rcases growth_completes validate_uneven rfl hrule (show (1 : Int) ≤ 3 by decide)
      (show UnitDraws (⟨[0, 1 / 2], []⟩ : Supply ℚ).draws from hunit) with h | ⟨records, h⟩
    · exact h
    · rw [Act.any, h] at hgrown
      cases hgrown
  · have hunit' : UnitDraws (⟨[0], []⟩ : Supply ℚ).draws := by decide +kernel
    rcases growth_completes validate_uneven rfl hrule (show (1 : Int) ≤ 3 by decide) hunit' with
      ⟨_, _, h, -⟩ | h
    · rw [Act.any, h] at hshort
      cases hshort
    · exact h

end Deontic.Grammar
