import Deontic.Proofs.Undoing

/-! The four ways to run a program agree.  A simulated trace is made again by its own choices,
whether these are assessed, forced or kept (`Along.assess`, `Along.generate`,
`Along.yields_update_empty`), and by the draws it was simulated with, if nothing is forced
(`generate_empty`).  All of them go the way of the trace, so they add the same log-densities in the
same order. -/

namespace Deontic

variable {P W α : Type} [Scale P W]

namespace Program

/-- Forcing nothing is simulating. -/
theorem generate_empty {program : Program P α} {supply rest : Supply P} {trace : Trace P W α}
    (h : program.simulate.Yields supply trace rest) :
    (program.generate .empty).Yields supply (some trace, Scale.certain P) rest := by
  obtain ⟨result, run, hexecute, rfl⟩ := yields_simulate.mp h
  obtain ⟨way, records, -, rfl, -⟩ := exists_way_of_yields hexecute
  have hnone : way.ofOrigin .free .forced = [] := List.filter_eq_nil_iff.mpr fun _ _ => nofun
  have hforced : (ended .free supply.draws way : Run P W).forced =
      (way.ofOrigin .free .forced).score := Run.forced_passes _ way
  rw [hnone] at hforced
  exact yields_generate_some.mpr ⟨result, _, hexecute, rfl, hforced.symm⟩

end Program

namespace Trace

/-- A trace that is revised by nothing stays as it is. -/
theorem Along.yields_update_empty {trace : Trace P W α} {way : Way P} (h : trace.Along way)
    (supply : Supply P) :
    ∃ records, (trace.update .empty).Yields supply
      (some trace, Scale.minus P (Scale.minus P trace.score trace.score) (Scale.certain P), .empty)
      ⟨supply.draws, records⟩ := by
  have hvalues : ∀ visit ∈ way,
      (Setting.revising .empty trace.choices).given visit.address = some visit.value := by
    intro visit hvisit
    rw [given_revising h, h.at?_choices]
    exact Way.value?_of_mem h.distinct hvisit
  have hcompletes := h.completes hvalues nofun supply.draws
  obtain ⟨records, hyields⟩ := hcompletes.yields
  obtain ⟨hfresh, hdraws⟩ := Program.ended_of_given hcompletes fun visit hvisit =>
    Option.isSome_iff_exists.mpr ⟨_, hvalues visit hvisit⟩
  have htrace := h.toTrace_ended hcompletes records
  -- no value is forced, and all earlier values are visited, so nothing is dropped
  have hforced : way.ofOrigin (.revising .empty trace.choices) .forced = [] := by
    refine List.filter_eq_nil_iff.mpr fun visit _ => ?_
    rw [decide_eq_true_eq, Setting.origin_forced_iff]
    exact nofun
  have hunvisited : (Setting.revising .empty trace.choices).previous.keys.filter
      (fun address => !way.addresses.contains address) = [] := by
    refine List.filter_eq_nil_iff.mpr fun address haddress => ?_
    have hvisited := Table.get?_isSome_of_mem_keys haddress
    rw [Setting.revising, h.get?_choices, Way.isSome_value?] at hvisited
    rw [hvisited]
    exact Bool.false_ne_true
  have hdiscard : (Program.ended (.revising .empty trace.choices) supply.draws way :
      Run P W).discard = .empty := by
    rw [Program.discard_ended, hforced, hunvisited]
    rfl
  rw [hdraws] at hyields
  refine ⟨records, yields_update.mpr ⟨.ok trace.result, _, hyields, hdiscard.symm, ?_, ?_⟩⟩
  · rw [htrace]
  · rw [← hfresh, ← congrArg Trace.score htrace]
    rfl

end Trace

namespace Grammar

/-- **The four ways to run a program agree.**  A simulated trace is generated again by the same
draws with log-weight zero if nothing is forced.  Its choices lead to its score and its result when
they are assessed, to the trace itself and its score when they are forced, and an update without
edits leaves the trace with weight zero and nothing discarded.  These three take no draw, and the
score is that of the one way which all of them go. -/
theorem runs_agree {grammar : Grammar ℚ} (hvalid : grammar.validate = .ok ())
    {program : Program ℚ α} (hlibrary : grammar.Library program)
    {trace : Trace ℚ LogWeight α} {supply rest : Supply ℚ} (hdraws : UnitDraws supply.draws)
    (h : program.simulate.Yields supply trace rest) :
    (program.generate .empty).Yields supply (some trace, (0 : LogWeight)) rest ∧
      ∃ way : Way ℚ, trace.Along way ∧ trace.score = way.score ∧ ∀ later : Supply ℚ,
        (∃ records, (program.assess trace.choices).Yields later (trace.score, some trace.result)
          ⟨later.draws, records⟩) ∧
        (∃ records, (program.generate trace.choices).Yields later (some trace, trace.score)
          ⟨later.draws, records⟩) ∧
        ∃ records, (trace.update .empty).Yields later (some trace, (0 : LogWeight), .empty)
          ⟨later.draws, records⟩ := by
  have hobtained : program.Obtained trace := .simulate hdraws h
  obtain ⟨way, halong⟩ :=
    hobtained.exists_along (hlibrary.fair (weighed_of_validate hvalid)) hlibrary.steady
  refine ⟨Program.generate_empty h, way, halong, halong.scored, fun later => ?_⟩
  have hweight : trace.score - trace.score - 0 = 0 := by
    rw [LogWeight.sub_zero, LogWeight.sub_self halong.score_ne_bot]
  obtain ⟨records, hupdate⟩ := halong.yields_update_empty later
  rw [← hobtained.program_eq]
  exact ⟨halong.assess (Choices.get?_flatten halong.tidied) later, halong.generate later, records,
    hweight ▸ hupdate⟩

/-- A norm with an obligation for one colour, by four draws. -/
theorem runs_agree_uneven :
    ∃ (trace : Trace ℚ LogWeight Tree) (rest : Supply ℚ), UnitDraws ([0, 0, 0, 1 / 2] : List ℚ) ∧
      uneven.model.simulate.Yields ⟨[0, 0, 0, 1 / 2], []⟩ trace rest ∧
      (uneven.model.generate .empty).Yields ⟨[0, 0, 0, 1 / 2], []⟩
        (some trace, (0 : LogWeight)) rest ∧
      ∃ records, (uneven.model.assess trace.choices).Yields ⟨[], []⟩
        (trace.score, some trace.result) ⟨[], records⟩ := by
  have hunit : UnitDraws ([0, 0, 0, 1 / 2] : List ℚ) := by decide +kernel
  have hruns : uneven.model.simulate.any ⟨[0, 0, 0, 1 / 2], []⟩
      (fun (_ : Trace ℚ LogWeight Tree) _ => true) = true := by decide +kernel
  obtain ⟨trace, rest, hsimulate, -⟩ := Act.exists_yields hruns
  obtain ⟨hgenerate, way, -, -, hagree⟩ := runs_agree validate_uneven .model hunit hsimulate
  exact ⟨trace, rest, hunit, hsimulate, hgenerate, (hagree ⟨[], []⟩).1⟩

end Grammar

end Deontic
