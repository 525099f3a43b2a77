import Deontic.Proofs.Execution
import Deontic.Proofs.Fairness
import Deontic.Proofs.Replacement
import Deontic.Proofs.Weighing

/-! What computations take from a supply.  Draws are taken one after the other from the front, so
that what is left is the end of the draws at hand, whether a computation succeeds or fails
(`Kernel.shortens_step`).  Draws from the unit interval therefore leave draws from the unit interval
(`Act.Shortens.unitDraws`). -/

namespace Deontic

variable {P W α β : Type}

namespace Act

/-- What is left of the draws is the end of them, also when the computation fails. -/
def Shortens (act : Act P α) : Prop := ∀ supply, (act.run.run supply).2.draws <:+ supply.draws

theorem shortens_pure (a : α) : (pure a : Act P α).Shortens := fun _ => List.suffix_rfl

theorem shortens_throw (fault : Fault) : (throw fault : Act P α).Shortens :=
  fun _ => List.suffix_rfl

theorem shortens_tell (record : Record) : (tell record : Act P Unit).Shortens :=
  fun _ => List.suffix_rfl

theorem shortens_ofExcept (result : Except Fault α) : (ofExcept result : Act P α).Shortens := by
  cases result with
  | ok a => exact shortens_pure a
  | error fault => exact shortens_throw fault

theorem shortens_draw : (draw : Act P P).Shortens := by
  rintro ⟨draws, records⟩
  cases draws with
  | nil => exact List.suffix_rfl
  | cons first rest => exact List.suffix_cons first rest

theorem Shortens.bind {act : Act P α} (h : act.Shortens) {f : α → Act P β}
    (hf : ∀ a, (f a).Shortens) : (act >>= f).Shortens := by
  intro supply
  have hfirst := h supply
  rw [ExceptT.run_bind, StateT.run_bind]
  cases hrun : act.run.run supply with
  | mk outcome left =>
    rw [hrun] at hfirst
    cases outcome with
    | error fault => exact hfirst
    | ok a => exact (hf a left).trans hfirst

/-- A check before the rest of a computation. -/
theorem Shortens.guard {rest : Act P Unit} (h : rest.Shortens) (failed : Bool) (fault : Fault) :
    (if failed = true then throw fault >>= fun _ : Unit => rest else rest).Shortens := by
  split
  · exact (shortens_throw fault).bind fun _ => h
  · exact h

theorem Shortens.unitDraws {act : Act ℚ α} (h : act.Shortens) {supply rest : Supply ℚ} {a : α}
    (hyields : act.Yields supply a rest) (hdraws : UnitDraws supply.draws) :
    UnitDraws rest.draws := by
  have hsuffix := h supply
  rw [hyields] at hsuffix
  exact fun draw hdraw => hdraws draw (hsuffix.subset hdraw)

end Act

variable [Scale P W]

namespace Run

theorem draws_keep (run : Run P W) (address : Path) (value : Value) (density : W) :
    (run.keep address value density).2.draws = run.draws := by
  unfold keep
  cases run.choices.set address value <;> rfl

theorem draws_settle (setting : Setting) (dist : Distribution P) (run : Run P W) (address : Path) :
    (run.settle setting dist address).2.draws <:+ run.draws := by
  unfold settle
  cases setting.constraints.get? address with
  | some value =>
    dsimp only [force]
    rw [drop_eq]
    split
    · exact List.suffix_rfl
    · rw [draws_keep]
  | none =>
    cases setting.previous.get? address with
    | some value =>
      dsimp only [reuse]
      split
      · exact List.suffix_rfl
      · rw [draws_keep]
    | none =>
      dsimp only
      split
      · exact List.suffix_rfl
      · unfold draw
        cases hsample : dist.sample run.draws with
        | error => exact List.suffix_rfl
        | ok drawn =>
          obtain ⟨value, rest⟩ := drawn
          dsimp only
          rw [draws_keep, Distribution.sample_eq_ok hsample]
          exact List.tail_suffix _

theorem draws_visit (setting : Setting) (dist : Distribution P) (run : Run P W) (address : Path) :
    (run.visit setting dist address).2.draws <:+ run.draws := by
  unfold visit
  cases address.check with
  | error => exact List.suffix_rfl
  | ok =>
    dsimp only
    split
    · exact List.suffix_rfl
    · exact draws_settle setting dist _ address

omit [Scale P W] in
theorem draws_finish {setting : Setting} {run ended : Run P W}
    (h : run.finish setting = .ok ended) : ended.draws = run.draws := by
  obtain ⟨-, rfl⟩ := finish_eq_ok.mp h
  rfl

end Run

theorem Sampler.draws_run (s : Sampler P α) (setting : Setting) (run : Run P W) :
    (s.run setting run).2.draws <:+ run.draws := by
  induction s generalizing run with
  | pure =>
    rw [Sampler.run]
    split
    · next hfinish => rw [Run.draws_finish hfinish]
    · exact List.suffix_rfl
  | fail => exact List.suffix_rfl
  | note record rest ih => exact ih _
  | choose address dist next ih =>
    have hvisit := Run.draws_visit setting dist run address
    rw [Sampler.run]
    split
    · next hrun =>
      rw [hrun] at hvisit
      exact (ih _ _).trans hvisit
    · next hrun =>
      rw [hrun] at hvisit
      exact hvisit

namespace Program

theorem shortens_execute (program : Program P α) (setting : Setting) :
    (program.execute setting : Act P (Except Path α × Run P W)).Shortens := by
  intro supply
  have hrun := (program (calls setting supply.draws)).draws_run setting
    (Run.start supply.draws supply.records : Run P W)
  show ((conclude ((program (calls setting supply.draws)).run setting
    (Run.start supply.draws supply.records))).run.run supply).2.draws <:+ supply.draws
  generalize (program (calls setting supply.draws)).run setting _ = ended at hrun
  obtain ⟨(_ | _) | _, run⟩ := ended <;> exact hrun

theorem shortens_simulate (program : Program P α) :
    (program.simulate : Act P (Trace P W α)).Shortens := by
  refine (program.shortens_execute _).bind fun ⟨outcome, run⟩ => ?_
  cases outcome with
  | ok => exact Act.shortens_pure _
  | error => exact Act.shortens_throw _

theorem shortens_assess (program : Program P α) (choices : Choices) :
    (program.assess choices : Act P (W × Option α)).Shortens := by
  refine (program.shortens_execute _).bind fun ⟨outcome, run⟩ => ?_
  cases outcome with
  | ok | error => exact Act.shortens_pure _

end Program

namespace Trace

theorem shortens_update (trace : Trace P W α) (edits : Choices) :
    (trace.update edits).Shortens := by
  refine (trace.program.shortens_execute _).bind fun ⟨outcome, run⟩ => ?_
  cases outcome with
  | ok | error => exact Act.shortens_pure _

theorem shortens_replace (trace : Trace P W α) (proposed : Choices) (shown : String) :
    (trace.replace proposed shown).Shortens := by
  refine (Act.shortens_ofExcept _).bind fun edits => ?_
  refine (trace.shortens_update edits).bind fun ⟨revised, weight, discard⟩ => ?_
  refine (Act.shortens_ofExcept _).bind fun picked => ?_
  refine (Act.shortens_ofExcept _).bind fun undo => ?_
  exact (Act.shortens_tell _).bind fun _ => Act.shortens_pure _

end Trace

namespace Kernel

variable [BEq α] [Shown α]

theorem shortens_checkUndone {move : Involution P W α}
    (hmove : ∀ trace choices shown, (move trace choices shown).Shortens) (trace : Trace P W α)
    (forward : Choices) (shown : String) (moved : Trace P W α) (undo : Choices) (weight : W) :
    (move.checkUndone trace forward shown moved undo weight).Shortens := by
  refine (hmove moved undo shown).bind fun ⟨back, choices, backWeight⟩ => ?_
  have hweight : (if (!Scale.close P backWeight (Scale.negate P weight)) = true then
      throw (.undo (.weight (Scale.weightDouble P backWeight) (Scale.weightDouble P weight)))
      else pure () : Act P Unit).Shortens := by
    split
    · exact Act.shortens_throw _
    · exact Act.shortens_pure _
  cases back with
  | none => exact (Act.shortens_throw _).bind fun _ => hweight.guard _ _
  | some back => exact (hweight.guard _ _).guard _ _

theorem shortens_weigh {kernel : Kernel P W α}
    (hmove : ∀ trace choices shown, (kernel.move trace choices shown).Shortens) (check : Bool)
    (trace : Trace P W α) (proposed : Choices) (forth : W) (shown : String) :
    (kernel.weigh check trace proposed forth shown).Shortens := by
  refine (hmove trace proposed shown).bind fun ⟨moved, undo, weight⟩ => ?_
  cases moved with
  | none => exact Act.shortens_pure _
  | some moved =>
    dsimp only
    split
    · exact Act.shortens_pure _
    have hassess := ((kernel.propose moved.result).shortens_assess undo (W := W)).bind
      fun back : W × Option Proposal => Act.shortens_pure (P := P)
        (some (⟨moved, undo, weight, forth, back.1⟩ : Weighing P W α))
    split
    · exact (shortens_checkUndone hmove trace proposed shown moved undo weight).bind fun _ =>
        hassess
    · exact hassess

omit [BEq α] [Shown α] in
theorem shortens_conclude (trace : Trace P W α) (weighed : Option (Weighing P W α)) :
    (conclude trace weighed).Shortens := by
  cases weighed with
  | none => exact (Act.shortens_tell _).bind fun _ => Act.shortens_pure _
  | some weighing =>
    refine Act.shortens_draw.bind fun draw => (Act.shortens_ofExcept _).bind fun accepted => ?_
    exact (Act.shortens_tell _).bind fun _ => Act.shortens_pure _

/-- A step takes its draws from the front. -/
theorem shortens_step {kernel : Kernel P W α}
    (hmove : ∀ trace choices shown, (kernel.move trace choices shown).Shortens) (check : Bool)
    (trace : Trace P W α) : (kernel.step check trace).Shortens := by
  rw [step_eq_weigh]
  refine ((kernel.propose trace.result).shortens_simulate (W := W)).bind fun forward => ?_
  exact (shortens_weigh hmove check trace forward.choices forward.score forward.result.written).bind
    fun weighed => shortens_conclude trace weighed

end Kernel

end Deontic
