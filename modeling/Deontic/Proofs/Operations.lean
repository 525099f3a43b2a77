import Deontic.Proofs.Programs
import Deontic.Proofs.Traces

/-! The operations on programs and traces, by what they come to.  All four are one execution and
what is read off it.  `Program.Obtained` gathers the traces that simulation, generation and updates
lead to; under fair distributions each of them is along a way (`Obtained.exists_along`).  The way of
a trace of the model is a derivation from the root rule (`exists_grown_of_model`). -/

namespace Deontic

variable {P W α : Type} [Scale P W]

namespace Program

variable {program : Program P α} {supply rest : Supply P}

theorem yields_simulate {trace : Trace P W α} :
    program.simulate.Yields supply trace rest ↔
      ∃ result run, (program.execute .free).Yields supply (.ok result, run) rest ∧
        trace = program.toTrace result run := by
  constructor
  · intro h
    obtain ⟨⟨outcome, run⟩, left, hexecute, h⟩ := Act.yields_bind.mp h
    cases outcome with
    | error => exact (Act.not_yields_throw h).elim
    | ok result =>
      obtain ⟨htrace, hleft⟩ := Act.yields_pure.mp h
      subst hleft
      exact ⟨result, run, hexecute, htrace.symm⟩
  · rintro ⟨result, run, hexecute, rfl⟩
    exact Act.yields_bind.mpr ⟨_, _, hexecute, Act.yields_pure.mpr ⟨rfl, rfl⟩⟩

theorem yields_generate_some {constraints : Choices} {trace : Trace P W α} {weight : W} :
    (program.generate constraints).Yields supply (some trace, weight) rest ↔
      ∃ result run, (program.execute (.forcing constraints)).Yields supply (.ok result, run) rest ∧
        trace = program.toTrace result run ∧ weight = run.forced := by
  constructor
  · intro h
    obtain ⟨⟨outcome, run⟩, left, hexecute, h⟩ := Act.yields_bind.mp h
    cases outcome with
    | error => cases (Act.yields_pure.mp h).1
    | ok result =>
      obtain ⟨hpair, hleft⟩ := Act.yields_pure.mp h
      subst hleft
      cases hpair
      exact ⟨result, run, hexecute, rfl, rfl⟩
  · rintro ⟨result, run, hexecute, rfl, rfl⟩
    exact Act.yields_bind.mpr ⟨_, _, hexecute, Act.yields_pure.mpr ⟨rfl, rfl⟩⟩

theorem yields_assess_some {choices : Choices} {score : W} {result : α} :
    (program.assess choices).Yields supply (score, some result) rest ↔
      ∃ run, (program.execute (.fixing choices)).Yields supply (.ok result, run) rest ∧
        score = run.score := by
  constructor
  · intro h
    obtain ⟨⟨outcome, run⟩, left, hexecute, h⟩ := Act.yields_bind.mp h
    cases outcome with
    | error => cases (Act.yields_pure.mp h).1
    | ok result =>
      obtain ⟨hpair, hleft⟩ := Act.yields_pure.mp h
      subst hleft
      cases hpair
      exact ⟨run, hexecute, rfl⟩
  · rintro ⟨run, hexecute, rfl⟩
    exact Act.yields_bind.mpr ⟨_, _, hexecute, Act.yields_pure.mpr ⟨rfl, rfl⟩⟩

theorem score_of_assess_none {choices : Choices} {score : W}
    (h : (program.assess choices).Yields supply (score, none) rest) :
    score = Scale.impossible P := by
  obtain ⟨⟨outcome, run⟩, left, -, h⟩ := Act.yields_bind.mp h
  cases outcome with
  | ok => cases (Act.yields_pure.mp h).1
  | error => exact (Prod.mk.inj (Act.yields_pure.mp h).1).1.symm

/-- Choices at which an execution stops as impossible have the score of the impossible. -/
theorem yields_assess_none {choices : Choices} {address : Path} {run : Run P W}
    (h : (program.execute (.fixing choices)).Yields supply (.error address, run) rest) :
    (program.assess choices).Yields supply (Scale.impossible P, none) rest :=
  Act.yields_bind.mpr ⟨_, _, h, Act.yields_pure.mpr ⟨rfl, rfl⟩⟩

end Program

theorem Trace.yields_update {trace : Trace P W α} {edits : Choices} {supply rest : Supply P}
    {moved : Option (Trace P W α)} {weight : W} {discard : Choices} :
    (trace.update edits).Yields supply (moved, weight, discard) rest ↔
      ∃ outcome run, (trace.program.execute (.revising edits trace.choices)).Yields supply
          (outcome, run) rest ∧ discard = run.discard ∧
        match outcome with
        | .ok result => moved = some (trace.program.toTrace result run) ∧
            weight = Scale.minus P (Scale.minus P run.score trace.score) run.fresh
        | .error _ => moved = none ∧ weight = Scale.impossible P := by
  constructor
  · intro h
    obtain ⟨⟨outcome, run⟩, left, hexecute, h⟩ := Act.yields_bind.mp h
    cases outcome with
    | error | ok =>
      obtain ⟨htriple, hleft⟩ := Act.yields_pure.mp h
      subst hleft
      cases htriple
      exact ⟨_, run, hexecute, rfl, rfl, rfl⟩
  · rintro ⟨outcome, run, hexecute, rfl, hmoved⟩
    refine Act.yields_bind.mpr ⟨_, _, hexecute, ?_⟩
    cases outcome with
    | error | ok =>
      obtain ⟨rfl, rfl⟩ := hmoved
      exact Act.yields_pure.mpr ⟨rfl, rfl⟩

namespace Program

/-- A completed run makes a trace along its way, if nothing on the way is impossible. -/
theorem Completes.along {program : Program P α} (hsteady : program.Steady) {setting : Setting}
    {draws : List P} {way : Way P} {result : α}
    (h : Completes (W := W) program setting draws way result) (records : List Record)
    (hpossible : ∀ visit ∈ way, Scale.isImpossible P (visit.density : W) = false) :
    (program.toTrace result { ended (W := W) setting draws way with records }).Along way where
  follows _ hcalls := hsteady _ _ _ _ h.follows hcalls
  distinct := h.admits.distinct.1
  recorded := Run.choices_passes h.admits
  scored := Run.score_passes _ way
  possible := hpossible

theorem Completes.possible {program : Program ℚ α} (hfair : ∀ calls, (program calls).Fair)
    {setting : Setting} {draws : List ℚ} (hdraws : UnitDraws draws) {way : Way ℚ} {result : α}
    (h : Completes (W := LogWeight) program setting draws way result) :
    ∀ visit ∈ way, Scale.isImpossible ℚ (visit.density : LogWeight) = false :=
  fun visit hvisit => Scale.isImpossible_rat.mpr
    ((h.admits.possible ((hfair _).of_follows h.follows) hdraws).1 visit hvisit)

/-- The traces of a program that simulation, generation and updates lead to, on draws from the unit
interval. -/
inductive Obtained (program : Program ℚ α) : Trace ℚ LogWeight α → Prop
  | simulate {supply rest : Supply ℚ} {trace : Trace ℚ LogWeight α}
      (hdraws : UnitDraws supply.draws) (h : program.simulate.Yields supply trace rest) :
      Obtained program trace
  | generate {constraints : Choices} {supply rest : Supply ℚ} {trace : Trace ℚ LogWeight α}
      {weight : LogWeight} (hdraws : UnitDraws supply.draws)
      (h : (program.generate constraints).Yields supply (some trace, weight) rest) :
      Obtained program trace
  | update {trace moved : Trace ℚ LogWeight α} {edits discard : Choices} {supply rest : Supply ℚ}
      {weight : LogWeight} (hfrom : Obtained program trace) (hdraws : UnitDraws supply.draws)
      (h : (trace.update edits).Yields supply (some moved, weight, discard) rest) :
      Obtained program moved

theorem Obtained.program_eq {program : Program ℚ α} {trace : Trace ℚ LogWeight α}
    (h : program.Obtained trace) : trace.program = program := by
  induction h with
  | simulate _ h =>
    obtain ⟨result, run, -, rfl⟩ := yields_simulate.mp h
    rfl
  | generate _ h =>
    obtain ⟨result, run, -, rfl, -⟩ := yields_generate_some.mp h
    rfl
  | update _ _ h ih =>
    obtain ⟨outcome, run, -, -, hmoved⟩ := Trace.yields_update.mp h
    cases outcome with
    | error => cases hmoved.1
    | ok result => rw [Option.some.inj hmoved.1]; exact ih

/-- Every trace that is obtained from a program with fair distributions is along a way. -/
theorem Obtained.exists_along {program : Program ℚ α} (hfair : ∀ calls, (program calls).Fair)
    (hsteady : program.Steady) {trace : Trace ℚ LogWeight α} (h : program.Obtained trace) :
    ∃ way, trace.Along way := by
  cases h with
  | simulate hdraws h =>
    obtain ⟨result, run, hexecute, rfl⟩ := yields_simulate.mp h
    obtain ⟨way, records, hcompletes, rfl, -⟩ := exists_way_of_yields hexecute
    exact ⟨way, hcompletes.along hsteady records (hcompletes.possible hfair hdraws)⟩
  | generate hdraws h =>
    obtain ⟨result, run, hexecute, rfl, -⟩ := yields_generate_some.mp h
    obtain ⟨way, records, hcompletes, rfl, -⟩ := exists_way_of_yields hexecute
    exact ⟨way, hcompletes.along hsteady records (hcompletes.possible hfair hdraws)⟩
  | update hfrom hdraws h =>
    obtain ⟨outcome, run, hexecute, -, hmoved⟩ := Trace.yields_update.mp h
    cases outcome with
    | error => cases hmoved.1
    | ok result =>
      obtain ⟨way, records, hcompletes, rfl, -⟩ := exists_way_of_yields hexecute
      rw [hfrom.program_eq] at hcompletes hmoved
      rw [Option.some.inj hmoved.1]
      exact ⟨way, hcompletes.along hsteady records (hcompletes.possible hfair hdraws)⟩

end Program

/-! ### Values at hand -/

/-- A run that has the values of a trace at hand goes the way of the trace. -/
theorem Trace.Along.admits {trace : Trace P W α} {way : Way P} (h : trace.Along way)
    {setting : Setting}
    (hgiven : ∀ visit ∈ way, setting.given visit.address = some visit.value) (draws : List P) :
    (trace.program (Program.calls setting draws)).Follows way trace.result ∧
      (Run.start draws [] : Run P W).AdmitsAll setting way := by
  have hgiven' : ∀ address ∈ way.addresses, (setting.given address).isSome := by
    intro address haddress
    obtain ⟨visit, hvisit, rfl⟩ := List.mem_map.mp haddress
    exact Option.isSome_iff_exists.mpr ⟨_, hgiven visit hvisit⟩
  have hlength := Program.length_lt_calls h.distinct hgiven' draws
  rw [Way.addresses, List.length_map] at hlength
  refine ⟨h.follows _ (Nat.le_of_lt hlength), ?_⟩
  exact Run.admitsAll_of_given (fun visit hvisit => ⟨hgiven visit hvisit, h.possible visit hvisit⟩)
    h.distinct (fun _ _ => rfl) ⟨_, h.recorded⟩

/-- A trace is made again from its values, however these are given. -/
theorem Trace.Along.completes {trace : Trace P W α} {way : Way P} (h : trace.Along way)
    {setting : Setting}
    (hgiven : ∀ visit ∈ way, setting.given visit.address = some visit.value)
    (hcovers : ∀ address ∈ setting.constraints.keys, way.addresses.contains address = true)
    (draws : List P) :
    Program.Completes (W := W) trace.program setting draws way trace.result := by
  obtain ⟨hfollows, hadmits⟩ := h.admits hgiven draws
  exact ⟨hfollows, hadmits, hcovers⟩

/-- A run along the way of a trace records that trace. -/
theorem Trace.Along.toTrace_ended {trace : Trace P W α} {way : Way P} (h : trace.Along way)
    {setting : Setting} {draws : List P}
    (hcompletes : Program.Completes (W := W) trace.program setting draws way trace.result)
    (records : List Record) :
    trace.program.toTrace trace.result { Program.ended setting draws way with records } =
      trace := by
  have hchoices : (Program.ended setting draws way : Run P W).choices = trace.choices :=
    Except.ok.inj ((Run.choices_passes hcompletes.admits).symm.trans h.recorded)
  have hscore : (Program.ended setting draws way : Run P W).score = trace.score :=
    (Run.score_passes _ way).trans h.scored.symm
  show (⟨trace.program, trace.result, _, _⟩ : Trace P W α) = trace
  rw [hchoices, hscore]

theorem Setting.ofOrigin_fresh {setting : Setting} {way : Way P}
    (hgiven : ∀ visit ∈ way, (setting.given visit.address).isSome) :
    way.ofOrigin setting .fresh = [] := by
  refine List.filter_eq_nil_iff.mpr fun visit hvisit => ?_
  rw [decide_eq_true_eq, Setting.origin_fresh_iff, ← Option.isNone_iff_eq_none,
    Option.isNone_eq_false_iff.mpr (hgiven visit hvisit)]
  exact Bool.false_ne_true

/-- A run on values at hand takes no draw. -/
theorem Run.draws_passes_of_given {setting : Setting} {run : Run P W} {way : Way P}
    (h : run.AdmitsAll setting way) (hgiven : ∀ visit ∈ way, (setting.given visit.address).isSome) :
    (run.passes setting way).draws = run.draws := by
  have hdrawn := Run.drawnFrom_passes h
  rw [Setting.ofOrigin_fresh hgiven] at hdrawn
  exact hdrawn.symm

theorem Program.ended_of_given {program : Program P α} {setting : Setting} {draws : List P}
    {way : Way P} {result : α} (h : Completes (W := W) program setting draws way result)
    (hgiven : ∀ visit ∈ way, (setting.given visit.address).isSome) :
    (ended setting draws way : Run P W).fresh = Scale.certain P ∧
      (ended setting draws way : Run P W).draws = draws := by
  have hfresh : (ended setting draws way : Run P W).fresh =
      (way.ofOrigin setting .fresh).scoreFrom (Scale.certain P) := Run.fresh_passes _ way
  rw [Setting.ofOrigin_fresh hgiven] at hfresh
  exact ⟨hfresh, Run.draws_passes_of_given h.admits hgiven⟩

/-- A run that takes no draw has all values at hand. -/
theorem Run.AdmitsAll.given_of_undrawn {setting : Setting} {run : Run P W} {way : Way P}
    (h : run.AdmitsAll setting way) (hdraws : (run.passes setting way).draws = run.draws) :
    ∀ visit ∈ way, (setting.given visit.address).isSome := by
  have hlength := (Run.drawnFrom_passes h).length
  rw [hdraws] at hlength
  have hnone : way.ofOrigin setting .fresh = [] := by
    apply List.eq_nil_of_length_eq_zero
    omega
  intro visit hvisit
  have horigin := List.filter_eq_nil_iff.mp hnone visit hvisit
  rw [decide_eq_true_eq, Setting.origin_fresh_iff] at horigin
  exact Option.isSome_iff_ne_none.mpr horigin

omit [Scale P W] in
theorem Setting.given_fixing (choices : Choices) (path : Path) :
    (fixing choices).given path = choices.flatten.get? path := by
  rw [given, fixing, Table.get?_empty, Option.or_none]

/-- What has a score that is not impossible is a trace of the program. -/
theorem Program.exists_along_of_assess {program : Program P α} (hsteady : program.Steady)
    {choices : Choices} {supply rest : Supply P} {score : W} {outcome : Option α}
    (h : (program.assess choices).Yields supply (score, outcome) rest)
    (hscore : score ≠ Scale.impossible P) :
    ∃ (trace : Trace P W α) (way : Way P), trace.Along way ∧ trace.program = program ∧
      trace.score = score ∧ outcome = some trace.result ∧
      ∀ path, trace.choices.at? path = choices.flatten.get? path := by
  cases outcome with
  | none => exact (hscore (score_of_assess_none h)).elim
  | some result =>
    obtain ⟨run, hexecute, rfl⟩ := yields_assess_some.mp h
    obtain ⟨way, records, hcompletes, rfl, -⟩ := exists_way_of_yields hexecute
    have hgiven := hcompletes.admits.given_of_strict rfl
    have halong := hcompletes.along hsteady records fun visit hvisit =>
      (hcompletes.admits.taken hvisit (hgiven visit hvisit)).2
    refine ⟨_, way, halong, rfl, rfl, rfl, fun path => ?_⟩
    rw [halong.at?_choices]
    cases hvalue : way.value? path with
    | some value =>
      obtain ⟨visit, hvisit, heq, rfl⟩ := Way.exists_of_value? hvalue
      rw [← Setting.given_fixing, ← Setting.given_congr _ heq]
      exact (hcompletes.admits.taken hvisit (hgiven visit hvisit)).1.symm
    | none =>
      rw [← Option.not_isSome_iff_eq_none, Way.isSome_value?] at hvalue
      symm
      rw [← Option.not_isSome_iff_eq_none]
      intro hsome
      obtain ⟨entry, hentry, heq⟩ := Table.exists_of_get?_isSome hsome
      have hcovered := hcompletes.covers entry.1 (List.mem_map_of_mem hentry)
      rw [List.contains_congr heq] at hcovered
      exact hvalue hcovered

/-- The choices of a trace have its score, and so have all choices with the same values. -/
theorem Trace.Along.assess {trace : Trace P W α} {way : Way P} (h : trace.Along way)
    {choices : Choices} (hchoices : ∀ path, choices.flatten.get? path = trace.choices.at? path)
    (supply : Supply P) :
    ∃ records, (trace.program.assess choices).Yields supply (trace.score, some trace.result)
      ⟨supply.draws, records⟩ := by
  have hvalues : ∀ visit ∈ way,
      (Setting.fixing choices).given visit.address = some visit.value := by
    intro visit hvisit
    rw [Setting.given_fixing, hchoices, h.at?_choices, Way.value?_of_mem h.distinct hvisit]
  have hcompletes := h.completes hvalues (fun address haddress => by
    rw [← Way.isSome_value?, ← h.at?_choices, ← hchoices]
    exact Table.get?_isSome_of_mem_keys haddress) supply.draws
  obtain ⟨records, hyields⟩ := hcompletes.yields
  obtain ⟨-, hdraws⟩ := Program.ended_of_given hcompletes fun visit hvisit =>
    Option.isSome_iff_exists.mpr ⟨_, hvalues visit hvisit⟩
  rw [hdraws] at hyields
  have hscore := congrArg Trace.score (h.toTrace_ended hcompletes records)
  exact ⟨records, Program.yields_assess_some.mpr ⟨_, hyields, hscore.symm⟩⟩

/-- All choices with given values have one score, without a draw. -/
def Program.Assesses (program : Program P α) (values : Path → Option Value) (score : W) : Prop :=
  ∀ (choices : Choices) (supply : Supply P), (∀ path, choices.flatten.get? path = values path) →
    ∃ outcome records, (program.assess choices).Yields supply (score, outcome)
      ⟨supply.draws, records⟩

theorem Trace.Along.assesses {trace : Trace P W α} {way : Way P} (h : trace.Along way) :
    trace.program.Assesses trace.choices.at? trace.score :=
  fun _ supply hchoices => ⟨some trace.result, h.assess hchoices supply⟩

/-- The choices of a trace, forced, make the trace again, and their log-density is its score. -/
theorem Trace.Along.generate {trace : Trace P W α} {way : Way P} (h : trace.Along way)
    (supply : Supply P) :
    ∃ records, (trace.program.generate trace.choices).Yields supply (some trace, trace.score)
      ⟨supply.draws, records⟩ := by
  have hconstrained (visit : Visit P) (hvisit : visit ∈ way) :
      trace.choices.flatten.get? visit.address = some visit.value := by
    rw [h.get?_choices, Way.value?_of_mem h.distinct hvisit]
  have hvalues : ∀ visit ∈ way,
      (Setting.forcing trace.choices).given visit.address = some visit.value := by
    intro visit hvisit
    rw [Setting.given, Setting.forcing, hconstrained visit hvisit]
    rfl
  have hcompletes := h.completes hvalues (fun address haddress => by
    rw [← Way.isSome_value?, ← h.get?_choices]
    exact Table.get?_isSome_of_mem_keys haddress) supply.draws
  obtain ⟨records, hyields⟩ := hcompletes.yields
  obtain ⟨-, hdraws⟩ := Program.ended_of_given hcompletes fun visit hvisit =>
    Option.isSome_iff_exists.mpr ⟨_, hvalues visit hvisit⟩
  rw [hdraws] at hyields
  have hall : way.ofOrigin (.forcing trace.choices) .forced = way := by
    refine List.filter_eq_self.mpr fun visit hvisit => ?_
    rw [decide_eq_true_eq, Setting.origin_forced_iff]
    exact Option.isSome_iff_exists.mpr ⟨_, hconstrained visit hvisit⟩
  have hforced : (Program.ended (.forcing trace.choices) supply.draws way : Run P W).forced =
      (way.ofOrigin (.forcing trace.choices) .forced).score := Run.forced_passes _ way
  rw [hall, ← h.scored] at hforced
  exact ⟨records, Program.yields_generate_some.mpr
    ⟨_, _, hyields, (h.toTrace_ended hcompletes records).symm, hforced.symm⟩⟩

/-- A trace along a way is obtained by forcing all its values. -/
theorem Trace.Along.obtained {trace : Trace ℚ LogWeight α} {way : Way ℚ} (h : trace.Along way) :
    trace.program.Obtained trace := by
  obtain ⟨records, hyields⟩ := h.generate ⟨[], []⟩
  exact .generate (show UnitDraws [] from nofun) hyields

/-- A trace of the model tells a derivation from the root rule. -/
theorem Grammar.exists_grown_of_model {grammar : Grammar P} {trace : Trace P W Tree} {way : Way P}
    (h : trace.Along way) (hprogram : trace.program = grammar.model) :
    ∃ whole, way = Way.under (.text "tree") whole ∧
      Grown grammar 1 grammar.root whole trace.result ∧
      ∀ visit ∈ whole, Scale.isImpossible P (visit.density : W) = false := by
  obtain ⟨whole, rfl, hwhole⟩ := Sampler.follows_under.mp (h.follows_program hprogram le_rfl)
  exact ⟨whole, rfl, .of_follows hwhole, fun visit hvisit =>
    h.possible (visit.under (.text "tree")) (List.mem_map_of_mem hvisit)⟩

end Deontic
