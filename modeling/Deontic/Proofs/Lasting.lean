import Deontic.Proofs.Consumption
import Deontic.Proofs.Halting
import Deontic.Proofs.Totals

/-! Programs that fail only for want of draws.  A run that fails has gone a way to a failure of the
program, to a choice that cannot be made, or to its end (`Sampler.exists_reaches_of_fault`).  A
program lasts for a number of choices if it meets none of these before, whatever possible values it
chooses (`Sampler.Lasts`), and it is orderly if no address on its ways stands in the way of another
(`Sampler.Orderly`).  Such a program can be simulated until the draws run out
(`Program.ends_simulate`).  Other runs of a program that lasts fail for three reasons more
(`Sampler.Lasts.stops`). -/

namespace Deontic

namespace Act

variable {P α β : Type}

/-- The computation comes to a result, or it fails because no draw is left. -/
def Ends (act : Act P α) (supply : Supply P) : Prop :=
  ∀ fault rest, act.run.run supply = (.error fault, rest) → fault = .supply .exhausted

theorem Yields.ends {act : Act P α} {supply rest : Supply P} {a : α}
    (h : act.Yields supply a rest) : act.Ends supply := by
  intro fault left hfails
  rw [h] at hfails
  cases hfails

theorem ends_pure (a : α) (supply : Supply P) : (pure a : Act P α).Ends supply :=
  (yields_pure.mpr ⟨rfl, rfl⟩).ends

theorem ends_tell (record : Record) (supply : Supply P) : (tell record : Act P Unit).Ends supply :=
  (yields_tell.mpr rfl).ends

theorem ends_draw (supply : Supply P) : (draw : Act P P).Ends supply := by
  obtain ⟨draws, records⟩ := supply
  cases draws with
  | nil =>
    intro fault rest hfails
    cases hfails
    rfl
  | cons first rest =>
    intro fault left hfails
    cases hfails

theorem Ends.bind {act : Act P α} {supply : Supply P} (h : act.Ends supply) {f : α → Act P β}
    (hf : ∀ a rest, act.Yields supply a rest → (f a).Ends rest) : (act >>= f).Ends supply := by
  intro fault rest hfails
  rw [ExceptT.run_bind, StateT.run_bind] at hfails
  cases hrun : act.run.run supply with
  | mk outcome left =>
    rw [hrun] at hfails
    cases outcome with
    | error =>
      cases hfails
      exact h _ _ hrun
    | ok a => exact hf a left hrun fault rest hfails

end Act

variable {P W α β : Type}

section Faults

variable [Scale P W]

/-- A run that fails has come to where the program fails, to a choice that cannot be made, or to an
end that cannot be reached. -/
theorem Sampler.exists_reaches_of_fault {setting : Setting} {s : Sampler P α} {run run' : Run P W}
    {fault : Fault} (h : s.run setting run = (.error (.fault fault), run')) :
    ∃ way t records, Reaches s way t ∧ run.AdmitsAll setting way ∧
      let passed : Run P W := { run.passes setting way with records }
      t = fail fault ∨ (∃ a, t = pure a ∧ passed.finish setting = .error (.fault fault)) ∨
        ∃ address dist next, t = choose address dist next ∧
          passed.visit setting dist address = (.error (.fault fault), run') := by
  induction s generalizing run with
  | pure a =>
    rw [Sampler.run] at h
    split at h
    · cases h
    · next hfinish =>
      cases h
      exact ⟨[], _, _, .refl _, trivial, .inr (.inl ⟨a, rfl, hfinish⟩)⟩
  | fail other =>
    cases h
    exact ⟨[], _, run'.records, .refl _, trivial, .inl rfl⟩
  | note record rest ih =>
    rw [Sampler.run] at h
    obtain ⟨way, t, records, hreaches, hadmits, hend⟩ := ih h
    rw [Run.passes_withRecords] at hend
    exact ⟨way, t, records, .note hreaches, Run.admitsAll_withRecords.mp hadmits, hend⟩
  | choose address dist next ih =>
    rw [Sampler.run] at h
    split at h
    · next value run₁ hvisit =>
      obtain ⟨hadmits, rfl⟩ := Run.visit_eq_ok.mp hvisit
      obtain ⟨way, t, records, hreaches, hrest, hend⟩ := ih value h
      exact ⟨⟨address, dist, value⟩ :: way, t, records, .choose hreaches, ⟨hadmits, hrest⟩, hend⟩
    · next halt run₁ hvisit =>
      cases h
      exact ⟨[], _, run.records, .refl _, trivial, .inr (.inr ⟨_, _, _, rfl, hvisit⟩)⟩

/-- A choice that can be recorded fails if its address was visited before, if a strict run has no
value for it, or if none can be drawn. -/
theorem Run.visit_eq_fault {setting : Setting} {run run' : Run P W} {dist : Distribution P}
    {address : Path} {fault : Fault}
    (h : run.visit setting dist address = (.error (.fault fault), run'))
    (hkeyed : address.check = .ok ())
    (hroom : ∀ value, ∃ choices, run.choices.set address value = .ok choices) :
    (run.visited.contains address = true ∧ fault = .execution (.repeated address)) ∨
      (setting.strict = true ∧ fault = .execution (.unvalued address)) ∨
      ∃ reason, dist.sample run.draws = .error reason ∧ fault = .supply reason ∧
        run'.draws = run.draws := by
  rw [visit, hkeyed] at h
  dsimp only at h
  split at h
  · next hvisited =>
    cases h
    exact .inl ⟨hvisited, rfl⟩
  cases hgiven : setting.given address with
  | some value =>
    obtain ⟨halted, -, hsettle⟩ := settle_of_given run ⟨address, dist, value⟩ hgiven
    obtain ⟨choices, hset⟩ := hroom value
    rw [hsettle, keep, choices_enter, hset] at h
    split at h <;> cases h
  | none =>
    rw [settle_of_fresh hgiven] at h
    split at h
    · next hstrict =>
      cases h
      exact .inr (.inl ⟨hstrict, rfl⟩)
    cases hsample : dist.sample run.draws with
    | error reason =>
      rw [hsample] at h
      cases h
      exact .inr (.inr ⟨reason, rfl, rfl, rfl⟩)
    | ok drawn =>
      obtain ⟨value, rest⟩ := drawn
      obtain ⟨choices, hset⟩ := hroom value
      rw [hsample] at h
      dsimp only at h
      rw [keep, choices_enter, hset] at h
      cases h

omit [Scale P W] in
/-- A run that has come to its result fails only over the first constraint that it has not visited.
-/
theorem Run.finish_eq_fault {setting : Setting} {run : Run P W} {fault : Fault}
    (h : run.finish setting = .error (.fault fault)) :
    ∃ address, (setting.constraints.keys.find? fun address => !run.visited.contains address) =
      some address ∧ fault = .execution (.unvisited address) := by
  rw [finish] at h
  split at h
  · next address hfirst =>
    cases h
    exact ⟨address, hfirst, rfl⟩
  · cases h

end Faults

/-! ### Addresses -/

theorem Choices.Recordable.exists_recorded {way : Way P} (h : Choices.Recordable way.addresses) :
    ∃ choices, Choices.empty.setAll way.entries = .ok choices := by
  apply Choices.Recordable.exists_setAll
  rw [Way.entries, List.map_map]
  exact h

/-- After choices at recordable addresses, a value can be recorded at another one. -/
theorem Run.exists_set_passes [Scale P W] {setting : Setting} {draws : List P}
    {records : List Record} {way : Way P} {address : Path}
    (hplaces : Choices.Recordable (way.addresses ++ [address]))
    (hadmits : (start draws records : Run P W).AdmitsAll setting way) (value : Value) :
    ∃ choices, ((start draws records : Run P W).passes setting way).choices.set address value =
      .ok choices := by
  have hkeys : (way.entries ++ [(address, value)]).map Prod.fst = way.addresses ++ [address] := by
    rw [List.map_append, Way.entries, List.map_map]
    rfl
  obtain ⟨recorded, hset⟩ := Choices.Recordable.exists_setAll (hkeys ▸ hplaces)
  obtain ⟨passed, hpassed, hlast⟩ := Choices.setAll_append_eq_ok.mp hset
  obtain rfl := Except.ok.inj (hpassed.symm.trans (choices_passes hadmits))
  obtain ⟨choices, hchoices, -⟩ := Choices.setAll_cons_eq_ok.mp hlast
  exact ⟨choices, hchoices⟩

/-- Different addresses of keys, all of one length. -/
structure Path.Orderly (length : Nat) (addresses : List Path) : Prop where
  distinct : addresses.Pairwise fun a b => (a == b) = false
  keyed : ∀ address ∈ addresses, address.check = .ok () ∧ address.length = length + 1

namespace Path.Orderly

variable {length : Nat} {addresses : List Path}

theorem recordable (h : Path.Orderly length addresses) : Choices.Recordable addresses :=
  .of_length h.keyed

theorem left {others : List Path} (h : Path.Orderly length (addresses ++ others)) :
    Path.Orderly length addresses :=
  ⟨(List.pairwise_append.mp h.distinct).1, (List.forall_mem_append.mp h.keyed).1⟩

theorem exists_recorded {way : Way P} (h : Path.Orderly length way.addresses) :
    ∃ choices, Choices.empty.setAll way.entries = .ok choices :=
  h.recordable.exists_recorded

end Path.Orderly

namespace Sampler

/-- On the ways of a program all addresses are different and of one length. -/
def Orderly (s : Sampler P α) : Prop :=
  ∃ length, ∀ way address dist next, Reaches s way (choose address dist next) →
    Path.Orderly length (way.addresses ++ [address])

/-- A program that does not fail within a number of choices, if all values chosen are possible. -/
def Lasts : Sampler ℚ α → Nat → Prop
  | pure _, _ => True
  | fail _, n => n = 0
  | note _ rest, n => rest.Lasts n
  | choose _ _ _, 0 => True
  | choose _ dist next, n + 1 =>
    dist.Proper ∧ ∀ value, (dist.logDensity value : LogWeight) ≠ ⊥ → (next value).Lasts n

theorem lasts_zero (s : Sampler ℚ α) : s.Lasts 0 := by
  induction s with
  | pure => trivial
  | fail => rfl
  | note record rest ih => exact ih
  | choose => trivial

theorem Lasts.mono {s : Sampler ℚ α} {m n : Nat} (h : s.Lasts n) (hle : m ≤ n) : s.Lasts m := by
  induction s generalizing m n with
  | pure => trivial
  | fail =>
    obtain rfl : n = 0 := h
    exact Nat.le_zero.mp hle
  | note record rest ih => exact ih h hle
  | choose address dist next ih =>
    cases m with
    | zero => trivial
    | succ m =>
      cases n with
      | zero => cases hle
      | succ n =>
        have hle := Nat.le_of_succ_le_succ hle
        exact ⟨h.1, fun value hvalue => ih value (h.2 value hvalue) hle⟩

theorem Lasts.bind_possible {s : Sampler ℚ α} {n : Nat} (h : s.Lasts n) {f : α → Sampler ℚ β}
    (hf : ∀ way a, s.Follows way a → (∀ visit ∈ way, (visit.density : LogWeight) ≠ ⊥) →
      (f a).Lasts n) : (s.bind f).Lasts n := by
  induction s generalizing n with
  | pure a => exact hf [] a (.refl _) nofun
  | fail => exact h
  | note record rest ih => exact ih h fun way a hway => hf way a (.note hway)
  | choose address dist next ih =>
    cases n with
    | zero => trivial
    | succ n =>
      refine ⟨h.1, fun value hvalue => ih value (h.2 value hvalue) fun way a hway hpossible => ?_⟩
      have hlasts := hf _ a (.choose hway) (List.forall_mem_cons.mpr ⟨hvalue, hpossible⟩)
      exact hlasts.mono (Nat.le_succ n)

theorem Lasts.bind {s : Sampler ℚ α} {n : Nat} (h : s.Lasts n) {f : α → Sampler ℚ β}
    (hf : ∀ way a, s.Follows way a → (f a).Lasts n) : (s.bind f).Lasts n :=
  h.bind_possible fun way a hway _ => hf way a hway

theorem Lasts.under {s : Sampler ℚ α} {n : Nat} (h : s.Lasts n) (key : Value) :
    (s.under key).Lasts n := by
  induction s generalizing n with
  | pure => trivial
  | fail => exact h
  | note record rest ih => exact ih h
  | choose address dist next ih =>
    cases n with
    | zero => trivial
    | succ n => exact ⟨h.1, fun value hvalue => ih value (h.2 value hvalue)⟩

theorem lasts_choice {key : Value} {dist : Distribution ℚ} {f : Value → Sampler ℚ α} {n : Nat}
    (hdist : dist.Proper)
    (hf : ∀ value, (dist.logDensity value : LogWeight) ≠ ⊥ → (f value).Lasts n) :
    ((sample key dist).bind f).Lasts (n + 1) := ⟨hdist, hf⟩

/-- After a way that a run on draws takes, what is left lasts for the other choices. -/
theorem Lasts.of_reaches {s t : Sampler ℚ α} {way : Way ℚ} {n : Nat} (h : s.Lasts n)
    (hreaches : Reaches s way t) {setting : Setting} {run : Run ℚ LogWeight}
    (hadmits : run.AdmitsAll setting way) (hdraws : UnitDraws run.draws) :
    t.Lasts (n - way.length) := by
  induction hreaches generalizing n run with
  | refl => exact h
  | note _ ih => exact ih h hadmits hdraws
  | @choose address dist value next way t _ ih =>
    obtain ⟨hvisit, hrest⟩ := hadmits
    cases n with
    | zero =>
      rw [Nat.zero_sub]
      exact lasts_zero t
    | succ n =>
      obtain ⟨hdist, hnext⟩ := h
      have hfirst : run.AdmitsAll setting [⟨address, dist, value⟩] := ⟨hvisit, trivial⟩
      obtain ⟨hpossible, hleft⟩ :=
        hfirst.possible (List.forall_mem_singleton.mpr hdist.fair) hdraws
      rw [List.length_cons, Nat.add_sub_add_right]
      exact ih (hnext value (hpossible _ List.mem_cons_self)) hrest hleft

/-- From draws of the unit interval a proper distribution fails to give a value only if there are
none. -/
theorem exhausted_of_sample {dist : Distribution ℚ} (hdist : dist.Proper) {draws : List ℚ}
    (hdraws : UnitDraws draws) {reason : SupplyFault} (h : dist.sample draws = .error reason) :
    reason = .exhausted ∧ draws = [] := by
  cases draws with
  | nil =>
    rw [hdist.sample_nil] at h
    exact ⟨(Except.error.inj h).symm, rfl⟩
  | cons draw rest =>
    obtain ⟨value, hvalue⟩ := hdist.exists_sample (hdraws draw List.mem_cons_self).2 rest
    rw [hvalue] at h
    cases h

section Stops

variable {s : Sampler ℚ α} {setting : Setting} {draws : List ℚ} {records : List Record}
  {fault : Fault} {run' : Run ℚ LogWeight}

/-- Why a run can fail if its program lasts for more choices than the run makes and all of them can
be recorded: for want of a draw or of a value, at an address that was visited before, or over a
constraint after it has come to a result. -/
theorem Lasts.stops
    (hplaces : ∀ way address dist next, Reaches s way (choose address dist next) →
      Choices.Recordable (way.addresses ++ [address])) (hdraws : UnitDraws draws)
    (hlasts : ∀ way : Way ℚ, (Run.start draws records : Run ℚ LogWeight).AdmitsAll setting way →
      s.Lasts (way.length + 1))
    (h : s.run setting (Run.start draws records) = (.error (.fault fault), run')) :
    (fault = .supply .exhausted ∧ run'.draws = []) ∨
      (setting.strict = true ∧ ∃ address, fault = .execution (.unvalued address)) ∨
      (∃ way address dist next, Reaches s way (choose address dist next) ∧
        way.addresses.contains address = true ∧ fault = .execution (.repeated address)) ∨
      ∃ way a address, Follows s way a ∧
        (Run.start draws records : Run ℚ LogWeight).AdmitsAll setting way ∧
        (setting.constraints.keys.find? fun address => !way.addresses.contains address) =
          some address ∧ fault = .execution (.unvisited address) := by
  obtain ⟨way, t, later, hreaches, hadmits, hend⟩ := exists_reaches_of_fault h
  have hleft := (hlasts way hadmits).of_reaches hreaches hadmits hdraws
  rw [Nat.add_sub_cancel_left] at hleft
  rcases hend with rfl | ⟨a, rfl, hfinish⟩ | ⟨address, dist, next, rfl, hvisit⟩
  · cases hleft
  · obtain ⟨address, hfirst, rfl⟩ := Run.finish_eq_fault hfinish
    simp only [Program.contains_visited] at hfirst
    exact .inr (.inr (.inr ⟨way, a, address, hreaches, hadmits, hfirst, rfl⟩))
  have hplace := hplaces way address dist next hreaches
  have hkeyed := (hplace.keyed address (List.mem_append_right _ List.mem_cons_self)).1
  rcases Run.visit_eq_fault hvisit hkeyed (Run.exists_set_passes hplace hadmits) with
    ⟨hvisited, rfl⟩ | ⟨hstrict, rfl⟩ | ⟨reason, hsample, rfl, hsame⟩
  · rw [Program.contains_visited] at hvisited
    exact .inr (.inr (.inl ⟨way, address, dist, next, hreaches, hvisited, rfl⟩))
  · exact .inr (.inl ⟨hstrict, address, rfl⟩)
  · have hsuffix := (Run.drawnFrom_passes hadmits).suffix
    obtain ⟨rfl, hnone⟩ := exhausted_of_sample hleft.1
      (fun draw hdraw => hdraws draw (hsuffix.subset hdraw)) hsample
    exact .inl ⟨rfl, hsame.trans hnone⟩

/-- A run on draws alone that lasts for more choices than there are draws fails when no draw is
left. -/
theorem Lasts.exhausted (hlasts : s.Lasts (draws.length + 1)) (horderly : s.Orderly)
    (hdraws : UnitDraws draws)
    (h : s.run .free (Run.start draws records) = (.error (.fault fault), run')) :
    fault = .supply .exhausted ∧ run'.draws = [] := by
  obtain ⟨length, horder⟩ := horderly
  have hlong (way : Way ℚ)
      (hadmits : (Run.start draws records : Run ℚ LogWeight).AdmitsAll .free way) :
      s.Lasts (way.length + 1) := by
    have hlength : draws.length = way.length + _ := (Run.drawnFrom_passes_free hadmits).length
    exact hlasts.mono (by omega)
  rcases Lasts.stops (fun way address dist next hreaches =>
      (horder way address dist next hreaches).recordable) hdraws hlong h with
    hexhausted | ⟨hstrict, -⟩ | ⟨way, address, dist, next, hreaches, hvisited, -⟩ |
      ⟨_, _, _, -, -, hfirst, -⟩
  · exact hexhausted
  · cases hstrict
  · have hnew := Path.contains_eq_false (horder way address dist next hreaches).distinct
    exact nomatch hvisited.symm.trans hnew
  · cases hfirst

/-- Why a run on draws can fail if its program lasts for ever and its addresses are of one
length. -/
theorem Lasts.faults (hlasts : ∀ n, s.Lasts n) {length : Nat}
    (hkeyed : ∀ way address dist next, Reaches s way (choose address dist next) →
      ∀ place ∈ way.addresses ++ [address], place.check = .ok () ∧ place.length = length + 1)
    (hdraws : UnitDraws draws)
    (h : s.run setting (Run.start draws records) = (.error (.fault fault), run')) :
    fault = .supply .exhausted ∨ (∃ address, fault = .execution (.unvalued address)) ∨
      (∃ way address dist next, Reaches s way (choose address dist next) ∧
        way.addresses.contains address = true ∧ fault = .execution (.repeated address)) ∨
      ∃ way a address, Follows s way a ∧
        (Run.start draws records : Run ℚ LogWeight).AdmitsAll setting way ∧
        fault = .execution (.unvisited address) := by
  rcases Lasts.stops (fun way address dist next hreaches =>
      .of_length (hkeyed way address dist next hreaches)) hdraws (fun way _ => hlasts _) h with
    ⟨hexhausted, -⟩ | ⟨-, hunvalued⟩ | hrepeated |
      ⟨way, a, address, hfollows, hadmits, -, hunvisited⟩
  · exact .inl hexhausted
  · exact .inr (.inl hunvalued)
  · exact .inr (.inr (.inl hrepeated))
  · exact .inr (.inr (.inr ⟨way, a, address, hfollows, hadmits, hunvisited⟩))

end Stops

end Sampler

namespace Program

/-- A simulation that fails is a run that fails. -/
theorem run_of_simulate_error [Scale P W] {program : Program P α} {supply rest : Supply P}
    {fault : Fault}
    (h : (program.simulate : Act P (Trace P W α)).run.run supply = (.error fault, rest)) :
    ∃ run : Run P W, (program (supply.draws.length + 1)).run .free
      (Run.start supply.draws supply.records) = (.error (.fault fault), run) ∧
        rest.draws = run.draws := by
  have hcalls : calls .free supply.draws = supply.draws.length + 1 := by
    rw [calls, show Setting.free.size = 0 from rfl, Nat.zero_add]
  cases hrun : (program (supply.draws.length + 1)).run .free
    (Run.start supply.draws supply.records : Run P W) with
  | mk outcome run =>
    have hexecute : (program.execute .free : Act P (Except Path α × Run P W)).run.run supply =
        (conclude (outcome, run)).run.run supply := by
      rw [← hrun, ← hcalls]
      rfl
    rw [simulate, ExceptT.run_bind, StateT.run_bind, hexecute] at h
    rcases outcome with (address | fault') | result
    · obtain ⟨_, _, _, _, -, -, -, hgiven, -⟩ := Sampler.exists_reaches_of_impossible hrun
      cases hgiven
    · cases h
      exact ⟨run, rfl, rfl⟩
    · cases h

/-- A program that lasts for more choices than there are draws can be simulated, or the draws run
out. -/
theorem ends_simulate {program : Program ℚ α} {supply : Supply ℚ} (hdraws : UnitDraws supply.draws)
    (hlasts : (program (supply.draws.length + 1)).Lasts (supply.draws.length + 1))
    (horderly : (program (supply.draws.length + 1)).Orderly) :
    (program.simulate : Act ℚ (Trace ℚ LogWeight α)).Ends supply := by
  intro fault rest h
  obtain ⟨run, hrun, -⟩ := run_of_simulate_error h
  exact (hlasts.exhausted horderly hdraws hrun).1

end Program

end Deontic
