import Deontic.Proofs.Weighing

/-! Computations do not read their records.  A run that starts with other records makes the same
choices with the same draws (`Sampler.run_withRecords`), and so does whatever is composed of
executions, draws and records (`Act.Oblivious`).  So a part of a step that leaves only records
behind changes nothing in what comes after it. -/

namespace Deontic

variable {P W α β : Type}

namespace Act

/-- What the computation comes to, and what it leaves of the draws, does not depend on the records
before it. -/
def Oblivious (act : Act P α) : Prop :=
  ∀ ⦃supply rest : Supply P⦄ ⦃a : α⦄, act.Yields supply a rest → ∀ records, ∃ later,
    act.Yields ⟨supply.draws, records⟩ a ⟨rest.draws, later⟩

theorem oblivious_pure (a : α) : (pure a : Act P α).Oblivious := by
  intro supply rest b h records
  obtain ⟨rfl, rfl⟩ := yields_pure.mp h
  exact ⟨records, yields_pure.mpr ⟨rfl, rfl⟩⟩

theorem oblivious_throw (fault : Fault) : (throw fault : Act P α).Oblivious :=
  fun _ _ _ h => (not_yields_throw h).elim

theorem oblivious_tell (record : Record) : (tell record : Act P Unit).Oblivious := by
  rintro supply rest ⟨⟩ h records
  obtain rfl := yields_tell.mp h
  exact ⟨record :: records, yields_tell.mpr rfl⟩

theorem oblivious_draw : (draw : Act P P).Oblivious := by
  intro supply rest first h records
  obtain rfl := yields_draw.mp h
  exact ⟨records, yields_draw.mpr rfl⟩

theorem oblivious_ofExcept (result : Except Fault α) : (ofExcept result : Act P α).Oblivious := by
  cases result with
  | ok a => exact oblivious_pure a
  | error fault => exact oblivious_throw fault

theorem Oblivious.bind {act : Act P α} (h : act.Oblivious) {f : α → Act P β}
    (hf : ∀ a, (f a).Oblivious) : (act >>= f).Oblivious := by
  intro supply rest b hyields records
  obtain ⟨a, left, ha, hb⟩ := yields_bind.mp hyields
  obtain ⟨later, ha⟩ := h ha records
  obtain ⟨last, hb⟩ := hf a hb later
  exact ⟨last, yields_bind.mpr ⟨a, _, ha, hb⟩⟩

end Act

variable [Scale P W]

theorem Run.visit_withRecords (setting : Setting) (dist : Distribution P) (run : Run P W)
    (address : Path) (records : List Record) :
    ({ run with records } : Run P W).visit setting dist address =
      ((run.visit setting dist address).1,
        { (run.visit setting dist address).2 with records }) := by
  unfold visit
  cases address.check with
  | error => rfl
  | ok =>
    dsimp only
    split
    · rfl
    unfold settle
    cases setting.constraints.get? address with
    | some value =>
      dsimp only [force]
      rw [drop_eq, drop_eq]
      split
      · rfl
      · dsimp only [keep]
        cases run.choices.set address value <;> rfl
    | none =>
      cases setting.previous.get? address with
      | some value =>
        dsimp only [reuse]
        split
        · rfl
        · dsimp only [keep]
          cases run.choices.set address value <;> rfl
      | none =>
        dsimp only [draw]
        split
        · rfl
        cases dist.sample run.draws with
        | error => rfl
        | ok drawn =>
          obtain ⟨value, rest⟩ := drawn
          dsimp only [keep]
          cases run.choices.set address value <;> rfl

/-- A run that starts with other records differs in records alone. -/
theorem Sampler.run_withRecords (s : Sampler P α) (setting : Setting) (run : Run P W)
    (records : List Record) : ∃ later, s.run setting { run with records } =
      ((s.run setting run).1, { (s.run setting run).2 with records := later }) := by
  induction s generalizing run records with
  | pure a =>
    refine ⟨records, ?_⟩
    rw [Sampler.run, Sampler.run, Run.finish, Run.finish]
    dsimp only
    cases setting.constraints.keys.find? fun address => !run.visited.contains address with
    | some => rfl
    | none =>
      dsimp only
      rw [Run.foldl_drop, Run.foldl_drop]
  | fail => exact ⟨records, rfl⟩
  | note record rest ih =>
    obtain ⟨later, hrun⟩ := ih { run with records := record :: run.records } (record :: records)
    exact ⟨later, hrun⟩
  | choose address dist next ih =>
    rw [Sampler.run, Sampler.run, Run.visit_withRecords]
    cases hvisit : run.visit setting dist address with
    | mk outcome visited =>
      cases outcome with
      | error halt => exact ⟨records, rfl⟩
      | ok value => exact ih value visited records

namespace Program

/-- An execution that starts with other records differs in records alone. -/
theorem execute_withRecords {program : Program P α} {setting : Setting} {supply rest : Supply P}
    {outcome : Except Path α} {run : Run P W}
    (h : (program.execute setting).Yields supply (outcome, run) rest) (records : List Record) :
    ∃ later, (program.execute setting).Yields ⟨supply.draws, records⟩
      (outcome, { run with records := later }) ⟨rest.draws, later⟩ := by
  obtain ⟨hrun, rfl⟩ := yields_execute_run.mp h
  obtain ⟨later, hother⟩ := (program (calls setting supply.draws)).run_withRecords setting
    (Run.start supply.draws supply.records : Run P W) records
  rw [hrun] at hother
  exact ⟨later, yields_execute_run.mpr ⟨hother, rfl⟩⟩

theorem oblivious_assess (program : Program P α) (choices : Choices) :
    (program.assess choices : Act P (W × Option α)).Oblivious := by
  intro supply rest assessed h records
  obtain ⟨⟨outcome, run⟩, left, hexecute, hlast⟩ := Act.yields_bind.mp h
  obtain ⟨later, hexecute⟩ := execute_withRecords hexecute records
  refine ⟨later, Act.yields_bind.mpr ⟨_, _, hexecute, ?_⟩⟩
  cases outcome with
  | ok | error =>
    obtain ⟨hassessed, rfl⟩ := Act.yields_pure.mp hlast
    exact Act.yields_pure.mpr ⟨hassessed, rfl⟩

end Program

theorem Kernel.oblivious_conclude (trace : Trace P W α)
    (weighed : Option (Weighing P W α)) : (conclude trace weighed).Oblivious := by
  cases weighed with
  | none => exact (Act.oblivious_tell _).bind fun _ => Act.oblivious_pure _
  | some weighing =>
    refine Act.oblivious_draw.bind fun draw => ?_
    refine (Act.oblivious_ofExcept _).bind fun accepted => ?_
    exact (Act.oblivious_tell _).bind fun _ => Act.oblivious_pure _

end Deontic
