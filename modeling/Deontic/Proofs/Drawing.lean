import Deontic.Proofs.Operations

/-! Simulated traces.  A choice is drawable if a draw from the unit interval gives its value.  The
traces that simulation leads to are those along the ways of drawable choices (`simulates_iff`), so
what such ways have in common holds of every simulation, and each of them is one. -/

namespace Deontic

variable {α : Type}

/-- Some draw from the unit interval gives the value. -/
def Visit.Drawable (visit : Visit ℚ) : Prop :=
  ∃ draw : ℚ, 0 ≤ draw ∧ draw < 1 ∧ visit.dist.sample [draw] = .ok (visit.value, [])

/-- The probability of all values. -/
def Way.probability (way : Way ℚ) : ℚ := (way.map fun visit => visit.dist.density visit.value).prod

/-- Simulation on draws from the unit interval can lead to the trace. -/
def Program.Simulates (program : Program ℚ α) (trace : Trace ℚ LogWeight α) : Prop :=
  ∃ supply rest : Supply ℚ, UnitDraws supply.draws ∧ program.simulate.Yields supply trace rest

namespace Distribution

/-- A value depends on one draw. -/
theorem sample_of_sample {dist : Distribution ℚ} {draw : ℚ} {rest : List ℚ} {value : Value}
    (h : dist.sample (draw :: rest) = .ok (value, rest)) (later : List ℚ) :
    dist.sample (draw :: later) = .ok (value, later) := by
  cases dist with
  | bernoulli yes =>
    cases h
    rfl
  | categorical weighted =>
    unfold sample at h ⊢
    dsimp only at h ⊢
    split at h
    · cases h
    · next hproper =>
      rw [if_neg hproper]
      split at h
      · next label hlabel =>
        cases h
        rfl
      · cases h

theorem drawable_bernoulli {address : Path} {yes : ℚ} {value : Value} :
    (⟨address, bernoulli yes, value⟩ : Visit ℚ).Drawable ↔
      value = .bool true ∧ 0 < yes ∨ value = .bool false ∧ yes < 1 := by
  constructor
  · rintro ⟨draw, hdraw, hdraw', hsample⟩
    have hvalue : value = .bool (decide (draw < yes)) := by cases hsample; rfl
    by_cases hlt : draw < yes
    · rw [decide_eq_true hlt] at hvalue
      exact .inl ⟨hvalue, hdraw.trans_lt hlt⟩
    · rw [decide_eq_false hlt] at hvalue
      exact .inr ⟨hvalue, (not_lt.mp hlt).trans_lt hdraw'⟩
  · have hsample (draw : ℚ) : (bernoulli yes).sample [draw] =
        .ok (.bool (decide (draw < yes)), []) := rfl
    rintro (⟨rfl, hpos⟩ | ⟨rfl, hlt⟩)
    · refine ⟨0, le_rfl, zero_lt_one, ?_⟩
      rw [hsample, decide_eq_true hpos]
    · refine ⟨max 0 yes, le_max_left _ _, max_lt zero_lt_one hlt, ?_⟩
      rw [hsample, decide_eq_false (not_lt.mpr (le_max_right _ _))]

end Distribution

/-- Drawn values of choices between yes and no are equal if they are both true or both false. -/
theorem Visit.Drawable.eq_of_isTrue {a b : Path} {p q : ℚ} {v w : Value}
    (h : (⟨a, .bernoulli p, v⟩ : Visit ℚ).Drawable) (k : (⟨b, .bernoulli q, w⟩ : Visit ℚ).Drawable)
    (heq : v.isTrue = w.isTrue) : v = w := by
  rcases Distribution.drawable_bernoulli.mp h with ⟨rfl, -⟩ | ⟨rfl, -⟩ <;>
    rcases Distribution.drawable_bernoulli.mp k with ⟨rfl, -⟩ | ⟨rfl, -⟩
  · rfl
  · cases heq
  · cases heq
  · rfl

/-- What is drawn between yes and no is one of them. -/
theorem Visit.Drawable.eq_bool {address : Path} {yes : ℚ} {value : Value}
    (h : (⟨address, .bernoulli yes, value⟩ : Visit ℚ).Drawable) : value = .bool value.isTrue := by
  rcases Distribution.drawable_bernoulli.mp h with ⟨rfl, -⟩ | ⟨rfl, -⟩ <;> rfl

theorem Visit.Drawable.density_pos {visit : Visit ℚ} (h : visit.Drawable)
    (hfair : visit.dist.Fair) : 0 < visit.dist.density visit.value := by
  obtain ⟨draw, hdraw, hdraw', hsample⟩ := h
  have hunit : UnitDraws [draw] := List.forall_mem_singleton.mpr ⟨hdraw, hdraw'⟩
  exact Scale.logOf_ne_bot.mp (Distribution.possible_of_sample hfair hunit hsample)

/-- The score of a way is the logarithm of its probability. -/
theorem Way.mass_score {way : Way ℚ} (h : ∀ visit ∈ way, 0 ≤ visit.dist.density visit.value) :
    ((way.score : LogWeight).mass : ℚ) = way.probability := by
  have hfrom (start : LogWeight) :
      ((way.scoreFrom start).mass : ℚ) = start.mass * way.probability := by
    induction way generalizing start with
    | nil => simp [scoreFrom, probability]
    | cons visit rest ih =>
      obtain ⟨hvisit, hrest⟩ := List.forall_mem_cons.mp h
      have hmass : ((Scale.plus ℚ start visit.density : LogWeight).mass : ℚ) =
          start.mass * visit.dist.density visit.value := by
        rw [Scale.plus_rat, LogWeight.mass_add, NNRat.cast_mul, Visit.density,
          Distribution.logDensity, Scale.mass_logOf hvisit]
      rw [scoreFrom, List.foldl_cons, ← scoreFrom, ih hrest, hmass, probability, probability,
        List.map_cons, List.prod_cons, mul_assoc]
  have hscore := hfrom (Scale.certain ℚ)
  rwa [Scale.certain_rat, LogWeight.mass_zero, NNRat.cast_one, one_mul] at hscore

namespace Way

theorem probability_append (first second : Way ℚ) :
    probability (first ++ second) = first.probability * second.probability := by
  rw [probability, List.map_append, List.prod_append, probability, probability]

theorem probability_under (key : Value) (way : Way ℚ) :
    (way.under key).probability = way.probability := by
  rw [probability, under, List.map_map]
  rfl

/-- What can be drawn does not depend on where it is chosen. -/
theorem drawable_under {key : Value} {way : Way ℚ} :
    (∀ visit ∈ way.under key, visit.Drawable) ↔ ∀ visit ∈ way, visit.Drawable :=
  List.forall_mem_map

/-- Possible choices have a positive probability. -/
theorem probability_pos {way : Way ℚ}
    (h : ∀ visit ∈ way, Scale.isImpossible ℚ (visit.density : LogWeight) = false) :
    0 < way.probability := by
  apply List.prod_pos
  intro p hp
  obtain ⟨visit, hvisit, rfl⟩ := List.mem_map.mp hp
  exact Scale.logOf_ne_bot.mp (Scale.isImpossible_rat.mp (h visit hvisit))

end Way

/-- The score of a trace is the logarithm of the probability of its way. -/
theorem Trace.Along.mass_score {trace : Trace ℚ LogWeight α} {way : Way ℚ} (h : trace.Along way) :
    (trace.score.mass : ℚ) = way.probability := by
  rw [h.scored]
  apply Way.mass_score
  intro visit hvisit
  exact (Scale.logOf_ne_bot.mp (Scale.isImpossible_rat.mp (h.possible visit hvisit))).le

namespace Run

theorem AdmitsAll.drawable {run : Run ℚ LogWeight} {way : Way ℚ} (h : run.AdmitsAll .free way)
    (hdraws : UnitDraws run.draws) : ∀ visit ∈ way, visit.Drawable := by
  induction way generalizing run with
  | nil => exact nofun
  | cons visit rest ih =>
    refine List.forall_mem_cons.mpr ⟨?_, ih h.2 hdraws.tail⟩
    have hsample := (h.1.drawn rfl).2
    obtain ⟨draw, later, heq⟩ := Distribution.sample_ne_nil hsample
    obtain ⟨hdraw, hdraw'⟩ := hdraws draw (by rw [heq]; exact List.mem_cons_self)
    rw [heq] at hsample
    exact ⟨draw, hdraw, hdraw', Distribution.sample_of_sample hsample []⟩

/-- A way of drawable choices is taken on some draws, whatever draws come later. -/
theorem exists_admitsAll {run : Run ℚ LogWeight} {way : Way ℚ}
    (hdrawable : ∀ visit ∈ way, visit.Drawable) (hdistinct : way.Distinct)
    (hnew : ∀ address ∈ way.addresses, run.visited.contains address = false)
    (hset : ∃ choices, run.choices.setAll way.entries = .ok choices) (later : List ℚ) :
    ∃ draws, UnitDraws draws ∧ draws.length = way.length ∧
      ({ run with draws := draws ++ later } : Run ℚ LogWeight).AdmitsAll .free way := by
  induction way generalizing run with
  | nil => exact ⟨[], nofun, rfl, trivial⟩
  | cons visit rest ih =>
    obtain ⟨hvisit, hdrawable⟩ := List.forall_mem_cons.mp hdrawable
    obtain ⟨hne, hdistinct⟩ := List.pairwise_cons.mp hdistinct
    obtain ⟨result, hset⟩ := hset
    obtain ⟨choices, hfirst, hrest⟩ := Choices.setAll_cons_eq_ok.mp hset
    obtain ⟨draw, hdraw, hdraw', hsample⟩ := hvisit
    have hnew' : ∀ address ∈ Way.addresses rest,
        (run.pass .free visit).visited.contains address = false := by
      intro address haddress
      rw [visited_pass, List.contains_cons, Bool.or_eq_false_iff, BEq.comm]
      exact ⟨hne address haddress, hnew _ (List.mem_cons_of_mem _ haddress)⟩
    have hset' : ∃ result, (run.pass .free visit).choices.setAll (Way.entries rest) = .ok result :=
      ⟨result, by rw [choices_pass hfirst]; exact hrest⟩
    obtain ⟨draws, hdraws, hlength, hadmits⟩ := ih hdrawable hdistinct hnew' hset'
    refine ⟨draw :: draws, List.forall_mem_cons.mpr ⟨⟨hdraw, hdraw'⟩, hdraws⟩,
      congrArg (· + 1) hlength, ?_, hadmits⟩
    refine ⟨((Choices.exists_set_iff visit.value).mp ⟨choices, hfirst⟩).1,
      hnew _ List.mem_cons_self, ⟨choices, hfirst⟩, nofun, fun _ => ⟨rfl, ?_⟩⟩
    exact Distribution.sample_of_sample hsample _

end Run

/-- A trace along a way of drawable choices is simulated on some draws, whatever draws are left. -/
theorem Trace.Along.exists_simulate {trace : Trace ℚ LogWeight α} {way : Way ℚ}
    (h : trace.Along way) (hdrawable : ∀ visit ∈ way, visit.Drawable) (later : List ℚ) :
    ∃ draws records, UnitDraws draws ∧
      trace.program.simulate.Yields ⟨draws ++ later, []⟩ trace ⟨later, records⟩ := by
  have hset : ∃ choices, (Run.start [] [] : Run ℚ LogWeight).choices.setAll way.entries =
      .ok choices := ⟨_, h.recorded⟩
  obtain ⟨draws, hdraws, hlength, hadmits⟩ :=
    Run.exists_admitsAll hdrawable h.distinct (fun _ _ => rfl) hset later
  have hcompletes : Program.Completes (W := LogWeight) trace.program .free
      (⟨draws ++ later, []⟩ : Supply ℚ).draws way trace.result := by
    refine ⟨h.follows _ ?_, hadmits, nofun⟩
    show way.length ≤ Setting.free.size + (draws ++ later).length + 1
    rw [List.length_append]
    omega
  obtain ⟨records, hyields⟩ := hcompletes.yields
  have hleft : (Program.ended .free (draws ++ later) way : Run ℚ LogWeight).draws = later := by
    have hdrawn := Run.drawnFrom_passes_free hadmits
    obtain ⟨taken, htaken⟩ := hdrawn.suffix
    have hcount := hdrawn.length
    have hsame : taken.length = draws.length := by
      have hboth := congrArg List.length htaken
      simp only [List.length_append, Run.start] at hboth hcount
      omega
    exact (List.append_inj htaken hsame).2
  rw [hleft] at hyields
  exact ⟨draws, _, hdraws, Program.yields_simulate.mpr
    ⟨_, _, hyields, (h.toTrace_ended hcompletes records).symm⟩⟩

namespace Program

/-- Exactly the traces along ways of drawable choices are simulated. -/
theorem simulates_iff {program : Program ℚ α} (hfair : ∀ calls, (program calls).Fair)
    (hsteady : program.Steady) {trace : Trace ℚ LogWeight α} :
    program.Simulates trace ↔ trace.program = program ∧
      ∃ way, trace.Along way ∧ ∀ visit ∈ way, visit.Drawable := by
  constructor
  · rintro ⟨supply, rest, hdraws, hyields⟩
    obtain ⟨result, run, hexecute, rfl⟩ := yields_simulate.mp hyields
    obtain ⟨way, records, hcompletes, rfl, -⟩ := exists_way_of_yields hexecute
    exact ⟨rfl, way, hcompletes.along hsteady records (hcompletes.possible hfair hdraws),
      hcompletes.admits.drawable hdraws⟩
  · rintro ⟨rfl, way, h, hdrawable⟩
    obtain ⟨draws, _, hdraws, hyields⟩ := h.exists_simulate hdrawable []
    rw [List.append_nil] at hyields
    exact ⟨_, _, hdraws, hyields⟩

end Program

end Deontic
