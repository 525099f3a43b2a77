import Deontic.Proofs.Drawing
import Deontic.Proofs.Undoing

/-! Importance weights.  A run with some values forced draws the others, and its weight is the
log-weight of the forced choices.  Forced and drawn choices make up the way (`score_ofOrigin`), so
the weight is what the score exceeds the log-weight of the drawn choices by, and a trace is drawn
with a probability that the weight completes to its joint probability (`generate_completed`). -/

namespace Deontic

variable {P W α : Type}

theorem LogWeight.add_sub_cancel_right {a b : LogWeight} (hb : b ≠ ⊥) : a + b - b = a := by
  ext
  rw [mass_sub, mass_add, mul_div_cancel_right₀ _ (ne_bot_iff.mp hb)]

namespace Way

theorem scoreFrom_eq (start : LogWeight) (way : Way ℚ) :
    way.scoreFrom start = start + (way.score : LogWeight) := by
  induction way generalizing start with
  | nil => exact (LogWeight.add_zero start).symm
  | cons visit rest ih =>
    have hhead : scoreFrom start (visit :: rest) = start + visit.density + score rest := ih _
    have htail : score (visit :: rest) = 0 + visit.density + (score rest : LogWeight) := ih _
    rw [hhead, htail]
    apply LogWeight.ext
    simp only [LogWeight.mass_add, LogWeight.mass_zero, one_mul, mul_assoc]

theorem mass_score_cons (visit : Visit ℚ) (rest : Way ℚ) :
    (score (visit :: rest) : LogWeight).mass =
      (visit.density : LogWeight).mass * (rest.score : LogWeight).mass := by
  have hscore : score (visit :: rest) = 0 + visit.density + (rest.score : LogWeight) :=
    scoreFrom_eq _ rest
  rw [hscore, LogWeight.mass_add, LogWeight.mass_add, LogWeight.mass_zero, one_mul]

theorem ofOrigin_cons {setting : Setting} {origin : Origin} (visit : Visit P) (rest : Way P) :
    ofOrigin setting origin (visit :: rest) = if setting.origin visit.address = origin then
      visit :: ofOrigin setting origin rest else ofOrigin setting origin rest := by
  rw [ofOrigin, List.filter_cons, ofOrigin]
  simp only [decide_eq_true_eq]

/-- Without earlier values, each choice is forced or drawn. -/
theorem score_ofOrigin (constraints : Choices) (way : Way ℚ) :
    (way.ofOrigin (.forcing constraints) .forced).score +
      (way.ofOrigin (.forcing constraints) .fresh).score = (way.score : LogWeight) := by
  induction way with
  | nil => exact LogWeight.add_zero 0
  | cons visit rest ih =>
    apply LogWeight.ext
    have hrest := congrArg LogWeight.mass ih
    rw [LogWeight.mass_add] at hrest
    rw [LogWeight.mass_add, mass_score_cons, ← hrest, ofOrigin_cons, ofOrigin_cons]
    by_cases hforced : ((Setting.forcing constraints).constraints.get? visit.address).isSome
    · have horigin : (Setting.forcing constraints).origin visit.address = .forced :=
        Setting.origin_forced_iff.mpr hforced
      rw [horigin, if_pos rfl, if_neg (by decide), mass_score_cons, mul_assoc]
    · have horigin : (Setting.forcing constraints).origin visit.address = .fresh := by
        rw [Setting.origin, if_neg hforced]
        rfl
      rw [horigin, if_neg (by decide), if_pos rfl, mass_score_cons, mul_left_comm]

end Way

namespace Trace

/-- The choices of a way that a generation draws: the constraints have no values for them. -/
def completion (constraints : Choices) (way : Way P) : Way P :=
  way.ofOrigin (.forcing constraints) .fresh

/-- A trace and a weight that a generation with constraints gives.  The choices of `fresh` are drawn
one after the other from `before`, and `after` is left. -/
structure Completed (trace : Trace ℚ LogWeight α) (constraints : Choices) (weight : LogWeight)
    (fresh : Way ℚ) (before after : List ℚ) : Prop where
  constrained : ∀ path value, constraints.flatten.get? path = some value →
    trace.choices.flatten.get? path = some value
  distinct : fresh.Distinct
  remaining : ∀ path, fresh.value? path =
    if (constraints.flatten.get? path).isSome then none else trace.choices.flatten.get? path
  drawn : fresh.DrawnFrom before after
  weighed : weight = trace.score - fresh.score
  joint : fresh.probability * weight.mass = trace.score.mass

open Program in
/-- A generation that comes to a result completes its constraints. -/
theorem Along.completed {trace : Trace ℚ LogWeight α} {way : Way ℚ} (h : trace.Along way)
    {constraints : Choices} {draws : List ℚ}
    (hcompletes : Completes (W := LogWeight) trace.program (.forcing constraints) draws way
      trace.result) :
    trace.Completed constraints (ended (W := LogWeight) (.forcing constraints) draws way).forced
      (completion constraints way) draws
      (ended (W := LogWeight) (.forcing constraints) draws way).draws := by
  have hsubset : ∀ visit ∈ completion constraints way,
      Scale.isImpossible ℚ (visit.density : LogWeight) = false :=
    fun visit hvisit => h.possible visit (List.mem_of_mem_filter hvisit)
  have hforced : (ended (.forcing constraints) draws way : Run ℚ LogWeight).forced =
      (way.ofOrigin (.forcing constraints) .forced).score := Run.forced_passes _ way
  have hweight : (ended (.forcing constraints) draws way : Run ℚ LogWeight).forced =
      trace.score - (completion constraints way).score := by
    rw [hforced, h.scored, ← Way.score_ofOrigin constraints way]
    exact (LogWeight.add_sub_cancel_right (Way.score_ne_bot hsubset)).symm
  refine ⟨fun path value hvalue => ?_, ?_, fun path => ?_, Run.drawnFrom_passes hcompletes.admits,
    hweight, ?_⟩
  · obtain ⟨entry, hentry, heq⟩ :=
      Table.exists_of_get?_isSome (Option.isSome_iff_exists.mpr ⟨_, hvalue⟩)
    have hvisited := hcompletes.covers entry.1 (List.mem_map_of_mem hentry)
    rw [List.contains_congr heq, ← Way.isSome_value?] at hvisited
    obtain ⟨taken, htaken⟩ := Option.isSome_iff_exists.mp hvisited
    obtain ⟨visit, hvisit, hplace, rfl⟩ := Way.exists_of_value? htaken
    have hgiven : (Setting.forcing constraints).given visit.address = some value := by
      rw [Setting.given_congr _ hplace, Setting.given, Setting.forcing, hvalue]
      rfl
    rw [h.get?_choices, htaken, (hcompletes.admits.given visit hvisit value hgiven).1]
  · exact List.pairwise_map.mpr ((List.pairwise_map.mp h.distinct).filter _)
  · rw [completion, Way.ofOrigin, Way.value?_filter (p := fun address =>
      decide ((Setting.forcing constraints).origin address = .fresh)), h.get?_choices]
    · simp only [Setting.origin_fresh_iff, Setting.given, Setting.forcing, Table.get?_empty,
        Option.or_none, decide_eq_true_eq]
      cases constraints.flatten.get? path <;> rfl
    · intro a b hab
      rw [Setting.origin_congr _ hab]
  · have hprobability : (((completion constraints way).score : LogWeight).mass : ℚ) =
        (completion constraints way).probability := Way.mass_score fun visit hvisit =>
      (Scale.logOf_ne_bot.mp (Scale.isImpossible_rat.mp (hsubset visit hvisit))).le
    rw [← hprobability, hforced, h.scored, ← Way.score_ofOrigin constraints way, LogWeight.mass_add,
      NNRat.cast_mul, mul_comm]
    rfl

end Trace

namespace Program

/-- **Importance weights.**  If a generation with constraints gives a trace and a weight, the trace
has all constraints, its other choices are those that were drawn, and the weight is the score less
the log-weight of what was drawn.  The probability of the drawn choices and the weight make up the
joint probability, and the choices of the trace are assessed at its score and its result. -/
theorem generate_completed {grammar : Grammar ℚ} (hvalid : grammar.validate = .ok ())
    {program : Program ℚ α} (hlibrary : grammar.Library program) {constraints : Choices}
    {trace : Trace ℚ LogWeight α} {weight : LogWeight} {supply rest : Supply ℚ}
    (hdraws : UnitDraws supply.draws)
    (h : (program.generate constraints).Yields supply (some trace, weight) rest) :
    (∃ way : Way ℚ, trace.Along way ∧ trace.Completed constraints weight
      (Trace.completion constraints way) supply.draws rest.draws) ∧
    ∀ later : Supply ℚ, ∃ records, (program.assess trace.choices).Yields later
      (trace.score, some trace.result) ⟨later.draws, records⟩ := by
  have hfair := hlibrary.fair (Grammar.weighed_of_validate hvalid)
  have hsteady := hlibrary.steady
  obtain ⟨result, run, hexecute, rfl, rfl⟩ := yields_generate_some.mp h
  obtain ⟨way, records, hcompletes, rfl, rfl⟩ := exists_way_of_yields hexecute
  have halong := hcompletes.along hsteady records (hcompletes.possible hfair hdraws)
  refine ⟨⟨way, halong, halong.completed hcompletes⟩, fun later => ?_⟩
  exact halong.assess (Choices.get?_flatten halong.tidied) later

/-- The root is made an obligation, and the words and the texts of its two colours are drawn. -/
theorem generate_completed_uneven :
    ∃ (constraints : Choices) (trace : Trace ℚ LogWeight Tree) (weight : LogWeight)
      (supply rest : Supply ℚ) (way : Way ℚ), UnitDraws supply.draws ∧
      (Grammar.uneven.model.generate constraints).Yields supply (some trace, weight) rest ∧
      trace.Completed constraints weight (Trace.completion constraints way)
        supply.draws rest.draws ∧
      (Trace.completion constraints way).length = 4 ∧
      ∃ records, (Grammar.uneven.model.assess trace.choices).Yields ⟨[], []⟩
        (trace.score, some trace.result) ⟨[], records⟩ := by
  have hunit : UnitDraws ([0, 1 / 3, 0, 2 / 3, 1 / 2] : List ℚ) := by decide +kernel
  let constraints : Choices := .nested (.text "tree")
    (.value (Grammar.key 1 "node_type") (.text "Obl") .empty) .empty
  have hruns : (Grammar.uneven.model.generate constraints).any ⟨[0, 1 / 3, 0, 2 / 3, 1 / 2], []⟩
      (fun (found : Option (Trace ℚ LogWeight Tree) × LogWeight) rest =>
        found.1.isSome && rest.draws.length == 1) = true := by
    decide +kernel
  obtain ⟨⟨trace, weight⟩, rest, hgenerate, hall⟩ := Act.exists_yields hruns
  obtain ⟨htrace, hleft⟩ := Bool.and_eq_true_iff.mp hall
  obtain ⟨trace, rfl⟩ := Option.isSome_iff_exists.mp htrace
  obtain ⟨⟨way, -, hcompleted⟩, hassess⟩ :=
    generate_completed Grammar.validate_uneven .model hunit hgenerate
  have hleft : rest.draws.length = 1 := eq_of_beq hleft
  have hlength : 5 = (Trace.completion constraints way).length + rest.draws.length :=
    hcompleted.drawn.length
  exact ⟨constraints, trace, weight, _, rest, way, hunit, hgenerate, hcompleted, by omega,
    hassess ⟨[], []⟩⟩

end Program

end Deontic
