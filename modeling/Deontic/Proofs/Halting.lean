import Deontic.Proofs.Operations

/-! Runs that stop at an impossible value.  Such a run has gone a way to a choice whose value is at
hand and has weight zero (`Program.exists_reaches_of_yields`), and a run that comes to such a choice
stops there (`Program.yields_of_reaches`).  Ways with the same values go on from each other
(`Reaches.comparable`), so that a way that is known shows where a run can have stopped. -/

namespace Deontic

variable {P W α : Type}

namespace Sampler

/-- Of two ways with the same values, one goes on where the other ends. -/
theorem Reaches.comparable {s u v : Sampler P α} {first second : Way P} (h : Reaches s first u)
    (k : Reaches s second v) (values : Path → Option Value)
    (hfirst : ∀ visit ∈ first, values visit.address = some visit.value)
    (hsecond : ∀ visit ∈ second, values visit.address = some visit.value) :
    (∃ rest, second = first ++ rest ∧ Reaches u rest v) ∨
      ∃ rest, first = second ++ rest ∧ Reaches v rest u := by
  induction h generalizing second with
  | refl => exact .inl ⟨second, rfl, k⟩
  | note h ih =>
    cases k with
    | refl => exact .inr ⟨_, rfl, .note h⟩
    | note k => exact ih k hfirst hsecond
  | @choose address dist value next way t h ih =>
    cases k with
    | refl => exact .inr ⟨_, rfl, .choose h⟩
    | @choose _ _ value' _ way' _ k =>
      obtain ⟨hvalue, hlater⟩ := List.forall_mem_cons.mp hfirst
      obtain ⟨hvalue', hlater'⟩ := List.forall_mem_cons.mp hsecond
      obtain rfl : value = value' := Option.some.inj (hvalue.symm.trans hvalue')
      rcases ih k hlater hlater' with ⟨rest, rfl, hrest⟩ | ⟨rest, rfl, hrest⟩
      · exact .inl ⟨rest, rfl, hrest⟩
      · exact .inr ⟨rest, rfl, hrest⟩

/-- A choice that is reached with the values of a way is on that way, or after it. -/
theorem Reaches.resume {s u : Sampler P α} {first way : Way P} {address : Path}
    {dist : Distribution P} {next : Value → Sampler P α} {value : Value} (h : Reaches s first u)
    (k : Reaches s way (.choose address dist next)) (values : Path → Option Value)
    (hfirst : ∀ visit ∈ first, values visit.address = some visit.value)
    (hway : ∀ visit ∈ way, values visit.address = some visit.value)
    (hvalue : values address = some value) :
    ⟨address, dist, value⟩ ∈ first ∨
      ∃ rest, way = first ++ rest ∧ Reaches u rest (.choose address dist next) := by
  rcases h.comparable k values hfirst hway with hafter | ⟨rest, rfl, hrest⟩
  · exact .inr hafter
  · cases hrest with
    | refl => exact .inr ⟨[], by rw [List.append_nil, List.append_nil], .refl _⟩
    | @choose _ _ value' _ later _ _ =>
      have hlast := hfirst ⟨address, dist, value'⟩ (List.mem_append_right _ List.mem_cons_self)
      obtain rfl : value = value' := Option.some.inj (hvalue.symm.trans hlast)
      exact .inl (List.mem_append_right _ List.mem_cons_self)

/-- A complete way goes on where a way with the same values ends. -/
theorem Follows.resume {s u : Sampler P α} {first full : Way P} {a : α} (h : Reaches s first u)
    (k : Follows s full a) (values : Path → Option Value)
    (hfirst : ∀ visit ∈ first, values visit.address = some visit.value)
    (hfull : ∀ visit ∈ full, values visit.address = some visit.value) :
    ∃ rest, full = first ++ rest ∧ Follows u rest a := by
  rcases h.comparable k values hfirst hfull with hafter | ⟨rest, rfl, hrest⟩
  · exact hafter
  · cases hrest
    exact ⟨[], by rw [List.append_nil, List.append_nil], .refl _⟩

end Sampler

/-- Among different addresses the last is not one of the others. -/
theorem Path.contains_eq_false {addresses : List Path} {address : Path}
    (h : (addresses ++ [address]).Pairwise fun a b => (a == b) = false) :
    addresses.contains address = false := by
  obtain ⟨-, -, hnew⟩ := List.pairwise_append.mp h
  rw [Bool.eq_false_iff]
  intro hcontains
  obtain ⟨earlier, hearlier, heq⟩ := List.contains_iff_exists_mem_beq.mp hcontains
  have hne := hnew earlier hearlier address (List.mem_singleton_self _)
  rw [BEq.comm, heq] at hne
  cases hne

variable [Scale P W] {setting : Setting}

namespace Run

/-- A way has not visited an address that differs from all of its own. -/
theorem unvisited_passes {way : Way P} {address : Path}
    (h : (way.addresses ++ [address]).Pairwise fun a b => (a == b) = false) (draws : List P)
    (records : List Record) :
    ((start draws records : Run P W).passes setting way).visited.contains address = false := by
  rw [Program.contains_visited]
  exact Path.contains_eq_false h

/-- Only a value at hand of weight zero makes a run stop as impossible. -/
theorem visit_eq_impossible {run run' : Run P W} {dist : Distribution P} {address stopped : Path}
    (h : run.visit setting dist address = (.error (.impossible stopped), run')) :
    stopped = address ∧ run'.draws = run.draws ∧ ∃ value, setting.given address = some value ∧
      Scale.isImpossible P (dist.logDensity value : W) = true := by
  rw [visit] at h
  split at h
  · cases h
  · split at h
    · cases h
    · cases hgiven : setting.given address with
      | some value =>
        obtain ⟨halted, hdraws, hsettle⟩ := settle_of_given run ⟨address, dist, value⟩ hgiven
        rw [hsettle] at h
        split at h
        · next himpossible =>
          cases h
          exact ⟨rfl, hdraws, value, rfl, himpossible⟩
        · rw [keep] at h
          split at h <;> cases h
      | none =>
        rw [settle_of_fresh hgiven] at h
        split at h
        · cases h
        · split at h
          · cases h
          · rw [keep] at h
            split at h <;> cases h

theorem visit_of_impossible {run : Run P W} {dist : Distribution P} {address : Path} {value : Value}
    (hkeyed : address.check = .ok ()) (hunvisited : run.visited.contains address = false)
    (hgiven : setting.given address = some value)
    (himpossible : Scale.isImpossible P (dist.logDensity value : W) = true) :
    ∃ run', run.visit setting dist address = (.error (.impossible address), run') ∧
      run'.draws = run.draws := by
  obtain ⟨halted, hdraws, hsettle⟩ := settle_of_given run ⟨address, dist, value⟩ hgiven
  refine ⟨halted, ?_, hdraws⟩
  rw [visit, hkeyed]
  dsimp only
  rw [hunvisited, hsettle]
  exact if_pos himpossible

end Run

namespace Sampler

/-- A run that stops as impossible has come to a choice whose value has weight zero. -/
theorem exists_reaches_of_impossible {s : Sampler P α} {run run' : Run P W} {address : Path}
    (h : s.run setting run = (.error (.impossible address), run')) :
    ∃ way dist next value, Reaches s way (choose address dist next) ∧ run.AdmitsAll setting way ∧
      run'.draws = (run.passes setting way).draws ∧ setting.given address = some value ∧
      Scale.isImpossible P (dist.logDensity value : W) = true := by
  induction s generalizing run with
  | pure a =>
    rw [Sampler.run] at h
    split at h
    · cases h
    · next hfinish =>
      rw [Run.finish] at hfinish
      split at hfinish <;> cases hfinish
      cases h
  | fail fault => cases h
  | note record rest ih =>
    rw [Sampler.run] at h
    obtain ⟨way, dist, next, value, hreaches, hadmits, hdraws, hgiven, himpossible⟩ := ih h
    rw [Run.passes_withRecords] at hdraws
    exact ⟨way, dist, next, value, .note hreaches, Run.admitsAll_withRecords.mp hadmits, hdraws,
      hgiven, himpossible⟩
  | choose place dist next ih =>
    rw [Sampler.run] at h
    split at h
    · next value run₁ hvisit =>
      obtain ⟨hadmits, rfl⟩ := Run.visit_eq_ok.mp hvisit
      obtain ⟨way, dist', next', value', hreaches, hrest, hdraws, hgiven, himpossible⟩ := ih value h
      exact ⟨⟨place, dist, value⟩ :: way, dist', next', value', .choose hreaches, ⟨hadmits, hrest⟩,
        hdraws, hgiven, himpossible⟩
    · next halt run₁ hvisit =>
      cases h
      obtain ⟨rfl, hdraws, value, hgiven, himpossible⟩ := Run.visit_eq_impossible hvisit
      exact ⟨[], dist, next, value, .refl _, trivial, hdraws, hgiven, himpossible⟩

/-- A run that admits a way goes on from its end. -/
theorem run_of_reaches {s t : Sampler P α} {run : Run P W} {way : Way P} (h : Reaches s way t)
    (hadmits : run.AdmitsAll setting way) :
    ∃ records, s.run setting run = t.run setting { run.passes setting way with records } := by
  induction h generalizing run with
  | refl => exact ⟨run.records, rfl⟩
  | note h ih =>
    obtain ⟨records, hrun⟩ := ih (Run.admitsAll_withRecords.mpr hadmits)
    rw [Run.passes_withRecords] at hrun
    exact ⟨records, hrun⟩
  | choose h ih =>
    obtain ⟨records, hrun⟩ := ih hadmits.2
    refine ⟨records, ?_⟩
    rw [Sampler.run, Run.visit_eq_ok.mpr ⟨hadmits.1, rfl⟩]
    exact hrun

end Sampler

namespace Program

variable {program : Program P α} {supply rest : Supply P} {address : Path}

/-- An execution that stops as impossible without a draw has come to a choice of weight zero with
values at hand. -/
theorem exists_reaches_of_yields {run : Run P W}
    (h : (program.execute setting).Yields supply (.error address, run) rest)
    (hdraws : rest.draws = supply.draws) :
    ∃ way dist next value, (program (calls setting supply.draws)).Reaches way
        (.choose address dist next) ∧
      (∀ visit ∈ way, setting.given visit.address = some visit.value ∧
        Scale.isImpossible P (visit.density : W) = false) ∧
      setting.given address = some value ∧
      Scale.isImpossible P (dist.logDensity value : W) = true := by
  obtain ⟨hrun, rfl⟩ := yields_execute_run.mp h
  obtain ⟨way, dist, next, value, hreaches, hadmits, hpassed, hvalue, himpossible⟩ :=
    Sampler.exists_reaches_of_impossible hrun
  have hundrawn := hadmits.given_of_undrawn (hpassed.symm.trans hdraws)
  exact ⟨way, dist, next, value, hreaches,
    fun visit hvisit => hadmits.taken hvisit (hundrawn visit hvisit), hvalue, himpossible⟩

/-- An execution stops at a choice of weight zero that it comes to. -/
theorem yields_of_admitted {way : Way P} {dist : Distribution P} {next : Value → Sampler P α}
    {value : Value} (hreaches : (program (calls setting supply.draws)).Reaches way
      (.choose address dist next))
    (hadmits : (Run.start supply.draws supply.records : Run P W).AdmitsAll setting way)
    (hvalue : setting.given address = some value)
    (himpossible : Scale.isImpossible P (dist.logDensity value : W) = true)
    (hdistinct : (way.addresses ++ [address]).Pairwise fun a b => (a == b) = false)
    (hkeyed : address.check = .ok ()) :
    ∃ run : Run P W, (program.execute setting).Yields supply (.error address, run)
      ⟨((Run.start supply.draws supply.records : Run P W).passes setting way).draws,
        run.records⟩ := by
  obtain ⟨records, hrun⟩ := Sampler.run_of_reaches hreaches hadmits
  have hunvisited : ({ (Run.start supply.draws supply.records : Run P W).passes setting way with
      records }).visited.contains address = false := Run.unvisited_passes hdistinct _ _
  obtain ⟨halted, hvisit, hdraws⟩ := Run.visit_of_impossible hkeyed hunvisited hvalue himpossible
  rw [Sampler.run, hvisit] at hrun
  refine ⟨halted, yields_execute_run.mpr ⟨hrun, ?_⟩⟩
  rw [hdraws]

/-- An execution stops at a choice of weight zero that it comes to with values at hand. -/
theorem yields_of_reaches {way : Way P} {dist : Distribution P} {next : Value → Sampler P α}
    {value : Value} (supply : Supply P)
    (hreaches : (program (calls setting supply.draws)).Reaches way (.choose address dist next))
    (hgiven : ∀ visit ∈ way, setting.given visit.address = some visit.value ∧
      Scale.isImpossible P (visit.density : W) = false)
    (hvalue : setting.given address = some value)
    (himpossible : Scale.isImpossible P (dist.logDensity value : W) = true)
    (hdistinct : (way.addresses ++ [address]).Pairwise fun a b => (a == b) = false)
    (hkeyed : address.check = .ok ())
    (hset : ∃ choices, Choices.empty.setAll way.entries = .ok choices) :
    ∃ run : Run P W, (program.execute setting).Yields supply (.error address, run)
      ⟨supply.draws, run.records⟩ := by
  have hadmits : (Run.start supply.draws supply.records : Run P W).AdmitsAll setting way :=
    Run.admitsAll_of_given hgiven (List.pairwise_append.mp hdistinct).1 (fun _ _ => rfl) hset
  obtain ⟨run, hyields⟩ := yields_of_admitted hreaches hadmits hvalue himpossible hdistinct hkeyed
  rw [Run.draws_passes_of_given hadmits fun visit hvisit =>
    Option.isSome_iff_exists.mpr ⟨_, (hgiven visit hvisit).1⟩] at hyields
  exact ⟨run, hyields⟩

end Program

end Deontic
