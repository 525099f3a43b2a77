import Deontic.Proofs.Operations

/-! Updates and their undoing.  An update of a trace takes, at each address that the new run visits,
the edited value, else the earlier one, else a drawn one (`Revision.values`), and what it discards
is what the new run does not show (`Revision.discards`).  So the discarded values and those of the
new trace are together all values of the earlier one, and updating with the discard goes the earlier
way again, without a draw (`Along.replay`). -/

namespace Deontic

variable {P W α : Type}

namespace Way

/-- Selecting choices by what does not depend on the spelling of addresses. -/
theorem value?_filter {p : Path → Bool} (hp : ∀ a b, (a == b) = true → p a = p b) (way : Way P)
    (path : Path) :
    value? (way.filter fun visit => p visit.address) path =
      if p path then way.value? path else none := by
  induction way with
  | nil => cases p path <;> rfl
  | cons visit rest ih =>
    rw [List.filter_cons]
    cases heq : visit.address == path with
    | true =>
      rw [hp _ _ heq]
      cases hpath : p path with
      | true => simp only [if_true, value?_cons, heq]
      | false => simpa [hpath] using ih
    | false =>
      cases hvisit : p visit.address <;> simp [value?_cons, heq, ih]

end Way

variable [Scale P W]

namespace Trace

/-- The choices of a way that an update with edits draws: neither the edits nor the trace has values
for them. -/
def drawn (trace : Trace P W α) (edits : Choices) (way : Way P) : Way P :=
  way.ofOrigin (.revising edits trace.choices) .fresh

/-- What an update with edits does: `fresh` are the choices that it draws. -/
structure Revision (trace : Trace P W α) (edits : Choices) (moved : Trace P W α)
    (discard : Choices) (fresh : Way P) : Prop where
  program : moved.program = trace.program
  covers : ∀ path, (edits.flatten.get? path).isSome → (moved.choices.at? path).isSome
  values : ∀ path value, moved.choices.at? path = some value →
    ((edits.flatten.get? path).or (trace.choices.at? path)).or (fresh.value? path) = some value
  fresh : ∀ path, fresh.value? path =
    if (edits.flatten.get? path).isNone && (trace.choices.at? path).isNone then
      moved.choices.at? path
    else none
  tidied : discard.Tidied
  discards : ∀ path, discard.at? path =
    if (moved.choices.at? path).isSome && (edits.flatten.get? path).isNone then none
    else trace.choices.at? path

theorem given_revising {trace : Trace P W α} {way : Way P} (h : trace.Along way) (edits : Choices)
    (path : Path) : (Setting.revising edits trace.choices).given path =
      (edits.flatten.get? path).or (trace.choices.at? path) := by
  rw [Setting.given, Setting.revising, Choices.get?_flatten h.tidied]

open Program in
theorem Along.revision {trace : Trace P W α} {way way' : Way P} (h : trace.Along way)
    {edits : Choices} {draws : List P} {result : α}
    (hcompletes : Completes (W := W) trace.program (.revising edits trace.choices)
      draws way' result)
    {records : List Record} {moved : Trace P W α} (hmoved : moved = trace.program.toTrace result
      { ended (W := W) (.revising edits trace.choices) draws way' with records })
    (h' : moved.Along way') :
    trace.Revision edits moved
      (ended (W := W) (.revising edits trace.choices) draws way').discard
      (trace.drawn edits way') := by
  have hfresh : ∀ path, (trace.drawn edits way').value? path =
      if (edits.flatten.get? path).isNone && (trace.choices.at? path).isNone then
          moved.choices.at? path
      else none := by
    intro path
    rw [drawn, Way.ofOrigin, Way.value?_filter (p := fun address =>
      decide ((Setting.revising edits trace.choices).origin address = .fresh)), h'.at?_choices]
    · simp only [Setting.origin_fresh_iff, given_revising h, Option.or_eq_none_iff,
        decide_eq_true_eq, Bool.and_eq_true, Option.isNone_iff_eq_none]
    · intro a b hab
      rw [Setting.origin_congr _ hab]
  obtain ⟨htidied, hdiscard⟩ := at?_discard (W := W) (.revising edits trace.choices) draws
    h.storable (fun path => h.keyed_of_get?) h'.distinct
  constructor
  · rw [hmoved]; rfl
  · intro path hpath
    obtain ⟨entry, hentry, heq⟩ := Table.exists_of_get?_isSome hpath
    have hcovered := hcompletes.covers entry.1 (List.mem_map_of_mem hentry)
    rw [h'.at?_choices, Way.isSome_value?, ← List.contains_congr heq]
    exact hcovered
  · intro path value hvalue
    cases hgiven : (Setting.revising edits trace.choices).given path with
    | none =>
      have hnone := hgiven
      rw [given_revising h, Option.or_eq_none_iff] at hnone
      rw [hfresh, hnone.1, hnone.2, hvalue]
      rfl
    | some taken =>
      rw [h'.at?_choices] at hvalue
      obtain ⟨visit, hvisit, heq, rfl⟩ := Way.exists_of_value? hvalue
      rw [← Setting.given_congr _ heq] at hgiven
      have htaken := (hcompletes.admits.given visit hvisit taken hgiven).1
      rw [Setting.given_congr _ heq, given_revising h] at hgiven
      rw [hgiven, htaken]
      rfl
  · exact hfresh
  · exact htidied
  · intro path
    rw [hdiscard, h'.at?_choices, Way.isSome_value?, ← Choices.get?_flatten h.tidied]
    rfl

/-- If edits and the values of `moved` together are all values of `trace`, the edits lead from
`moved` to `trace`, and no draw is taken. -/
theorem Along.replay {trace moved : Trace P W α} {way way' : Way P} (h : trace.Along way)
    (h' : moved.Along way') (hprogram : moved.program = trace.program) {edits : Choices}
    (hgiven : ∀ path value, trace.choices.at? path = some value →
      (edits.flatten.get? path).or (moved.choices.at? path) = some value)
    (hcovered : ∀ path, (edits.flatten.get? path).isSome → (trace.choices.at? path).isSome)
    (supply : Supply P) :
    ∃ records discard, (moved.update edits).Yields supply
        (some trace, Scale.minus P (Scale.minus P trace.score moved.score) (Scale.certain P),
          discard)
        ⟨supply.draws, records⟩ ∧
      discard.Tidied ∧ ∀ path, discard.at? path =
        if (trace.choices.at? path).isSome && (edits.flatten.get? path).isNone then none
        else moved.choices.at? path := by
  have hvalues : ∀ visit ∈ way,
      (Setting.revising edits moved.choices).given visit.address = some visit.value := by
    intro visit hvisit
    rw [given_revising h']
    apply hgiven
    rw [h.at?_choices, Way.value?_of_mem h.distinct hvisit]
  have hcompletes : Program.Completes (W := W) trace.program (.revising edits moved.choices)
      supply.draws way trace.result := by
    refine h.completes hvalues (fun address haddress => ?_) supply.draws
    rw [← Way.isSome_value?, ← h.at?_choices]
    exact hcovered address (Table.get?_isSome_of_mem_keys haddress)
  obtain ⟨records, hyields⟩ := hcompletes.yields
  obtain ⟨hfresh, hdraws⟩ := Program.ended_of_given hcompletes
    fun visit hvisit => Option.isSome_iff_exists.mpr ⟨_, hvalues visit hvisit⟩
  obtain ⟨htidied, hdiscard⟩ := Program.at?_discard (W := W)
    (.revising edits moved.choices) supply.draws h'.storable
    (fun path => h'.keyed_of_get?) h.distinct
  have htrace := h.toTrace_ended hcompletes records
  rw [hdraws, ← hprogram] at hyields
  rw [← hprogram] at htrace
  refine ⟨records, _, yields_update.mpr ⟨.ok trace.result, _, hyields, rfl, ?_, ?_⟩, htidied,
    fun path => ?_⟩
  · rw [htrace]
  · rw [← hfresh, ← congrArg Trace.score htrace]
    rfl
  · rw [hdiscard, h.at?_choices, Way.isSome_value?, ← Choices.get?_flatten h'.tidied]
    rfl

/-- An update leaves a trace along a way, and does what `Revision` says. -/
theorem Along.exists_revision {trace moved : Trace P W α} {way : Way P} (h : trace.Along way)
    (hsteady : trace.program.Steady) {edits discard : Choices} {weight : W} {supply rest : Supply P}
    (hupdate : (trace.update edits).Yields supply (some moved, weight, discard) rest)
    (hpossible : ∀ way' result, Program.Completes (W := W) trace.program
        (.revising edits trace.choices) supply.draws way' result →
      (Program.ended (W := W) (.revising edits trace.choices) supply.draws way').draws =
        rest.draws →
      ∀ visit ∈ way', Scale.isImpossible P (visit.density : W) = false) :
    ∃ way' : Way P, moved.Along way' ∧ trace.Revision edits moved discard (trace.drawn edits way') ∧
      (trace.drawn edits way').DrawnFrom supply.draws rest.draws ∧
      weight = Scale.minus P (Scale.minus P moved.score trace.score)
        (trace.drawn edits way').score := by
  obtain ⟨outcome, run, hexecute, rfl, hmoved⟩ := yields_update.mp hupdate
  cases outcome with
  | error => cases hmoved.1
  | ok result =>
    obtain ⟨way', records, hcompletes, rfl, rfl⟩ := Program.exists_way_of_yields hexecute
    obtain ⟨hmoved, rfl⟩ := hmoved
    have h' := hcompletes.along hsteady records (hpossible _ _ hcompletes rfl)
    rw [← Option.some.inj hmoved] at h'
    refine ⟨way', h', h.revision hcompletes (Option.some.inj hmoved) h',
      Run.drawnFrom_passes hcompletes.admits, ?_⟩
    rw [Option.some.inj hmoved]
    have hfresh :
        (Program.ended (.revising edits trace.choices) supply.draws way' : Run P W).fresh =
          (trace.drawn edits way').score := Run.fresh_passes _ way'
    rw [← hfresh]
    rfl

/-- An update that takes no draw is a revision without drawn values. -/
theorem Along.exists_undrawn_revision {trace moved : Trace P W α} {way : Way P}
    (h : trace.Along way) (hsteady : trace.program.Steady) {edits discard : Choices} {weight : W}
    {supply rest : Supply P}
    (hupdate : (trace.update edits).Yields supply (some moved, weight, discard) rest)
    (hdraws : rest.draws = supply.draws) :
    ∃ way' : Way P, moved.Along way' ∧ trace.Revision edits moved discard [] ∧
      weight = Scale.minus P (Scale.minus P moved.score trace.score) (Scale.certain P) := by
  obtain ⟨way', h', hrevision, hdrawn, rfl⟩ := h.exists_revision hsteady hupdate
    fun way' result hcompletes hended visit hvisit => by
      have hgiven := hcompletes.admits.given_of_undrawn (hended.trans hdraws) visit hvisit
      exact (hcompletes.admits.taken hvisit hgiven).2
  have hlength := hdrawn.length
  rw [hdraws] at hlength
  have hnone : trace.drawn edits way' = [] := by
    apply List.eq_nil_of_length_eq_zero
    omega
  rw [hnone] at hrevision ⊢
  exact ⟨way', h', hrevision, rfl⟩

end Trace

namespace Way

theorem scoreFrom_ne_bot {start : LogWeight} (hstart : start ≠ ⊥) {way : Way ℚ}
    (h : ∀ visit ∈ way, Scale.isImpossible ℚ (visit.density : LogWeight) = false) :
    way.scoreFrom start ≠ ⊥ := by
  induction way generalizing start with
  | nil => exact hstart
  | cons visit rest ih =>
    obtain ⟨hvisit, hrest⟩ := List.forall_mem_cons.mp h
    exact ih (LogWeight.add_ne_bot hstart (Scale.isImpossible_rat.mp hvisit)) hrest

theorem score_ne_bot {way : Way ℚ}
    (h : ∀ visit ∈ way, Scale.isImpossible ℚ (visit.density : LogWeight) = false) :
    (way.score : LogWeight) ≠ ⊥ :=
  scoreFrom_ne_bot (LogWeight.ne_bot_iff.mpr one_ne_zero) h

end Way

namespace Trace

theorem Along.score_ne_bot {trace : Trace ℚ LogWeight α} {way : Way ℚ} (h : trace.Along way) :
    trace.score ≠ ⊥ := by
  rw [h.scored]
  exact Way.score_ne_bot h.possible

omit [Scale P W] in
theorem Revision.isSome_of_discard {trace moved : Trace P W α} {edits discard : Choices}
    {fresh : Way P} (h : trace.Revision edits moved discard fresh) {path : Path}
    (hpath : (discard.at? path).isSome) : (trace.choices.at? path).isSome := by
  rw [h.discards] at hpath
  split at hpath
  · cases hpath
  · exact hpath

omit [Scale P W] in
/-- The values that an update discards, with those of the new trace, are the earlier values. -/
theorem Revision.restores {trace moved : Trace P W α} {edits discard : Choices} {fresh : Way P}
    (h : trace.Revision edits moved discard fresh) (path : Path) (value : Value)
    (hvalue : trace.choices.at? path = some value) :
    (discard.at? path).or (moved.choices.at? path) = some value := by
  rw [h.discards, hvalue]
  cases hmoved : moved.choices.at? path with
  | none => rfl
  | some taken =>
    cases hedited : edits.flatten.get? path with
    | none =>
      have htaken := h.values path taken hmoved
      rw [hedited, hvalue] at htaken
      exact htaken.symm
    | some edited => rfl

omit [Scale P W] in
/-- What the discard displaces in the new trace are the edits and the drawn values. -/
theorem Revision.displaces {trace moved : Trace P W α} {edits discard : Choices} {fresh : Way P}
    (h : trace.Revision edits moved discard fresh) (path : Path) :
    (if (trace.choices.at? path).isSome && (discard.at? path).isNone then none
      else moved.choices.at? path) = (edits.flatten.get? path).or (fresh.value? path) := by
  rw [h.discards, h.fresh]
  cases hmoved : moved.choices.at? path with
  | none =>
    have hnone : edits.flatten.get? path = none := by
      rw [← Option.not_isSome_iff_eq_none]
      intro hsome
      have := h.covers path hsome
      rw [hmoved] at this
      cases this
    cases trace.choices.at? path <;> simp [hnone]
  | some taken =>
    have htaken := h.values path taken hmoved
    cases hedited : edits.flatten.get? path with
    | none => cases trace.choices.at? path <;> simp
    | some edited =>
      rw [hedited] at htaken
      cases trace.choices.at? path <;> simpa using htaken.symm

omit [Scale P W] in
/-- A revision depends on the edits and the discard by their values alone. -/
theorem Revision.congr {trace moved : Trace P W α} {edits edits' discard discard' : Choices}
    {fresh : Way P} (h : trace.Revision edits moved discard fresh)
    (hedits : ∀ path, edits'.flatten.get? path = edits.flatten.get? path)
    (htidied : discard'.Tidied) (hdiscard : ∀ path, discard'.at? path = discard.at? path) :
    trace.Revision edits' moved discard' fresh where
  program := h.program
  covers path := by rw [hedits]; exact h.covers path
  values path := by rw [hedits]; exact h.values path
  fresh path := by rw [hedits]; exact h.fresh path
  tidied := htidied
  discards path := by rw [hdiscard, hedits]; exact h.discards path

omit [Scale P W] in
/-- A revision that draws nothing is undone by the revision with its discard. -/
theorem Revision.reverse {trace moved : Trace P W α} {edits discard : Choices}
    (h : trace.Revision edits moved discard []) (htidied : edits.Tidied) :
    moved.Revision discard trace edits [] := by
  have hdiscard (path : Path) : discard.flatten.get? path = discard.at? path :=
    Choices.get?_flatten h.tidied path
  refine ⟨h.program.symm, fun path hpath => ?_, fun path value hvalue => ?_, fun path => ?_,
    htidied, fun path => ?_⟩
  · rw [hdiscard] at hpath
    exact h.isSome_of_discard hpath
  · rw [hdiscard, h.restores path value hvalue]
    rfl
  · rw [hdiscard]
    cases hvalue : trace.choices.at? path with
    | none => split <;> rfl
    | some value =>
      have hrestores := h.restores path value hvalue
      cases hold : discard.at? path with
      | some => rfl
      | none =>
        rw [hold, Option.none_or] at hrestores
        rw [hrestores]
        rfl
  · rw [hdiscard, h.displaces, Choices.get?_flatten htidied]
    exact (Option.or_none).symm

/-- A revision that draws nothing is carried out by an update, whatever the supply. -/
theorem Revision.yields_update {trace moved : Trace P W α} {edits discard : Choices}
    {way way' : Way P} (h : trace.Revision edits moved discard []) (htrace : trace.Along way)
    (hmoved : moved.Along way') (supply : Supply P) :
    ∃ records discard', (trace.update edits).Yields supply
        (some moved, Scale.minus P (Scale.minus P moved.score trace.score) (Scale.certain P),
          discard')
        ⟨supply.draws, records⟩ ∧
      discard'.Tidied ∧ ∀ path, discard'.at? path = discard.at? path := by
  have hgiven (path : Path) (value : Value) (hvalue : moved.choices.at? path = some value) :
      (edits.flatten.get? path).or (trace.choices.at? path) = some value := by
    rw [← h.values path value hvalue]
    exact Option.or_none.symm
  obtain ⟨records, discard', hyields, htidied, hdiscard⟩ :=
    hmoved.replay htrace h.program.symm hgiven h.covers supply
  exact ⟨records, discard', hyields, htidied, fun path => by rw [hdiscard, h.discards]⟩

/-- **Updates are undone by their discard.**  If an update of a trace gives a new trace, a weight
and a discard, then updating the new trace with the discard takes no draw and gives the earlier
trace, the opposite of the weight and of the log-weight of what was drawn, and a discard of the
edits and of what was drawn. -/
theorem update_discard {grammar : Grammar ℚ} (hvalid : grammar.validate = .ok ())
    {program : Program ℚ α} (hlibrary : grammar.Library program)
    {trace moved : Trace ℚ LogWeight α} (htrace : program.Obtained trace)
    {edits discard : Choices} {weight : LogWeight} {supply rest : Supply ℚ}
    (hdraws : UnitDraws supply.draws)
    (hupdate : (trace.update edits).Yields supply (some moved, weight, discard) rest) :
    ∃ way : Way ℚ, moved.Along way ∧
      (trace.drawn edits way).DrawnFrom supply.draws rest.draws ∧
      ∀ later : Supply ℚ, ∃ records back, (moved.update discard).Yields later
          (some trace, -(weight + (trace.drawn edits way).score), back) ⟨later.draws, records⟩ ∧
        ∀ path, back.flatten.get? path =
          (edits.flatten.get? path).or ((trace.drawn edits way).value? path) := by
  have hfair := hlibrary.fair (Grammar.weighed_of_validate hvalid)
  have hsteady := hlibrary.steady
  obtain ⟨way, h⟩ := htrace.exists_along hfair hsteady
  rw [← htrace.program_eq] at hfair hsteady
  obtain ⟨way', h', hrevision, hdrawn, rfl⟩ := h.exists_revision hsteady hupdate
    fun _ _ hcompletes _ => hcompletes.possible hfair hdraws
  refine ⟨way', h', hdrawn, fun later => ?_⟩
  -- the discard and the new trace have all earlier values, so the update goes the earlier way again
  have hdiscard (path : Path) : discard.flatten.get? path = discard.at? path :=
    Choices.get?_flatten hrevision.tidied path
  have hgiven (path : Path) (value : Value) (hvalue : trace.choices.at? path = some value) :
      (discard.flatten.get? path).or (moved.choices.at? path) = some value := by
    rw [hdiscard]
    exact hrevision.restores path value hvalue
  have hcovered (path : Path) (hpath : (discard.flatten.get? path).isSome) :
      (trace.choices.at? path).isSome := by
    rw [hdiscard] at hpath
    exact hrevision.isSome_of_discard hpath
  obtain ⟨records, back, hyields, htidied, hback⟩ :=
    h.replay h' hrevision.program hgiven hcovered later
  have hdrawn_ne_bot : ((trace.drawn edits way').score : LogWeight) ≠ ⊥ :=
    Way.score_ne_bot fun visit hvisit => h'.possible visit (List.mem_of_mem_filter hvisit)
  have hweight : trace.score - moved.score - 0 =
      -(moved.score - trace.score - (trace.drawn edits way').score +
        (trace.drawn edits way').score) :=
    LogWeight.sub_eq_neg_add hdrawn_ne_bot
  refine ⟨records, back, hweight ▸ hyields, fun path => ?_⟩
  rw [Choices.get?_flatten htidied, hback, hdiscard]
  exact hrevision.displaces path

/-- An obligation for two colours becomes a norm with an obligation for one. -/
theorem exists_update_uneven :
    ∃ (trace moved : Trace ℚ LogWeight Tree) (edits discard : Choices) (weight : LogWeight)
      (rest : Supply ℚ), Grammar.uneven.model.Obtained trace ∧
      (trace.update edits).Yields ⟨[0, 1 / 2], []⟩ (some moved, weight, discard) rest := by
  have hunit : UnitDraws ([1 / 2, 0, 1 / 3, 0, 2 / 3] : List ℚ) := by decide +kernel
  let edits : Choices := .nested (.text "tree") (.value (Grammar.key 1 "node_type") (.text "Norm")
    (.value (Grammar.key 2 "node_type") (.text "Obl") .empty)) .empty
  have hruns : Grammar.uneven.model.simulate.any ⟨[1 / 2, 0, 1 / 3, 0, 2 / 3], []⟩
      (fun (trace : Trace ℚ LogWeight Tree) _ =>
        (trace.update edits).any ⟨[0, 1 / 2], []⟩ fun outcome _ => outcome.1.isSome) = true := by
    decide +kernel
  obtain ⟨trace, _, htrace, hruns⟩ := Act.exists_yields hruns
  obtain ⟨⟨moved, weight, discard⟩, rest, hupdate, hmoved⟩ := Act.exists_yields hruns
  obtain ⟨moved, rfl⟩ := Option.isSome_iff_exists.mp hmoved
  exact ⟨trace, moved, edits, discard, weight, rest, .simulate hunit htrace, hupdate⟩

/-- An obligation for two colours becomes a norm with an obligation for one, for whose colour a word
and a text are drawn; the way back takes no draw. -/
theorem update_discard_uneven :
    ∃ (trace moved : Trace ℚ LogWeight Tree) (edits discard : Choices) (weight : LogWeight)
      (supply rest : Supply ℚ) (way : Way ℚ), UnitDraws supply.draws ∧
      Grammar.uneven.model.Obtained trace ∧
      (trace.update edits).Yields supply (some moved, weight, discard) rest ∧
      moved.Along way ∧ (trace.drawn edits way).DrawnFrom supply.draws rest.draws ∧
      ∃ records back, (moved.update discard).Yields ⟨[], []⟩
        (some trace, -(weight + (trace.drawn edits way).score), back) ⟨[], records⟩ := by
  have hunit : UnitDraws ([0, 1 / 2] : List ℚ) := by decide +kernel
  obtain ⟨trace, moved, edits, discard, weight, rest, hobtained, hupdate⟩ := exists_update_uneven
  obtain ⟨way, halong, hdrawn, hback⟩ :=
    update_discard Grammar.validate_uneven .model hobtained hunit hupdate
  obtain ⟨records, back, hreplay, -⟩ := hback ⟨[], []⟩
  exact ⟨trace, moved, edits, discard, weight, _, rest, way, hunit, hobtained, hupdate, halong,
    hdrawn, records, back, hreplay⟩

end Trace

end Deontic
