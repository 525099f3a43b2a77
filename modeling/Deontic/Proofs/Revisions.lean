import Deontic.Proofs.Checking

/-! The account of an update.  An update keeps, overwrites, drops and draws choices, and each choice
of the two traces is in exactly one of these parts (`Trace.Accounted`).  The new run may come to a
result without having visited all edits (`Trace.Reruns`); then the update fails, and else it gives a
new trace (`update_accounted`). -/

namespace Deontic

variable {P W α : Type}

namespace Program

variable [Scale P W] {program : Program P α} {setting : Setting} {supply : Supply P} {way : Way P}

/-- A run that fails makes an execution fail for the same reason. -/
theorem execute_eq_fault {fault : Fault} {run : Run P W}
    (h : (program (calls setting supply.draws)).run setting
      (Run.start supply.draws supply.records) = (.error (.fault fault), run)) :
    (program.execute setting : Act P (Except Path α × Run P W)).run.run supply =
      (.error fault, ⟨run.draws, run.records⟩) := by
  have hexecute : (program.execute setting : Act P (Except Path α × Run P W)).run.run supply =
      (conclude ((program (calls setting supply.draws)).run setting
        (Run.start supply.draws supply.records))).run.run supply := rfl
  rw [h] at hexecute
  exact hexecute

theorem fails_execute {fault : Fault} {run : Run P W}
    (h : (program (calls setting supply.draws)).run setting
      (Run.start supply.draws supply.records) = (.error (.fault fault), run)) :
    (program.execute setting : Act P (Except Path α × Run P W)).Fails supply fault :=
  ⟨_, execute_eq_fault h⟩

section Unvisited

variable {result : α} (hfollows : (program (calls setting supply.draws)).Follows way result)
  (hadmits : (Run.start supply.draws [] : Run P W).AdmitsAll setting way)
include hfollows hadmits

/-- An execution that reaches its result fails over the first constraint that it has not visited. -/
theorem fails_execute_of_first {address : Path}
    (hfirst : (setting.constraints.keys.find? fun address => !way.addresses.contains address) =
      some address) :
    (program.execute setting : Act P (Except Path α × Run P W)).Fails supply
      (.execution (.unvisited address)) := by
  have hadmits' : ({ Run.start supply.draws [] with records := supply.records } :
      Run P W).AdmitsAll setting way := Run.admitsAll_withRecords.mpr hadmits
  obtain ⟨records, hrun⟩ := Sampler.run_of_reaches hfollows hadmits'
  rw [Run.passes_withRecords, Sampler.run, Run.finish] at hrun
  simp only [contains_visited, hfirst] at hrun
  exact fails_execute hrun

/-- An execution that reaches its result without some constraint fails. -/
theorem fails_execute_of_unvisited
    (hunvisited : ¬ ∀ address ∈ setting.constraints.keys, way.addresses.contains address = true) :
    ∃ address ∈ setting.constraints.keys, way.addresses.contains address = false ∧
      (program.execute setting : Act P (Except Path α × Run P W)).Fails supply
        (.execution (.unvisited address)) := by
  cases hfirst : setting.constraints.keys.find? fun address => !way.addresses.contains address with
  | none =>
    rw [List.find?_eq_none] at hfirst
    exact (hunvisited (by simpa using hfirst)).elim
  | some address =>
    have hmissed := List.find?_some hfirst
    rw [Bool.not_eq_true'] at hmissed
    exact ⟨address, List.mem_of_find?_eq_some hfirst, hmissed,
      fails_execute_of_first hfollows hadmits hfirst⟩

end Unvisited

end Program

namespace Trace

/-- Where the choices before and after an update with edits come from and go to.  The choices of
`fresh` are drawn one after the other from `before`, and `after` is left. -/
structure Accounted (trace moved : Trace ℚ LogWeight α) (edits discard : Choices)
    (weight : LogWeight) (fresh : Way ℚ) (before after : List ℚ) : Prop where
  edited : ∀ path value, edits.flatten.get? path = some value →
    moved.choices.flatten.get? path = some value
  kept : ∀ path value, edits.flatten.get? path = none →
    trace.choices.flatten.get? path = some value →
    (moved.choices.flatten.get? path).isSome → moved.choices.flatten.get? path = some value
  distinct : fresh.Distinct
  remaining : ∀ path, fresh.value? path =
    if (edits.flatten.get? path).isNone && (trace.choices.flatten.get? path).isNone then
      moved.choices.flatten.get? path
    else none
  drawn : fresh.DrawnFrom before after
  dropped : ∀ path, discard.flatten.get? path =
    if (edits.flatten.get? path).isSome || (moved.choices.flatten.get? path).isNone then
      trace.choices.flatten.get? path
    else none
  weighed : weight = moved.score - trace.score - fresh.score

/-- A new run comes to a result along a way, whether or not it has visited all edits. -/
structure Reruns [Scale P W] (trace : Trace P W α) (edits : Choices) (draws : List P) (way : Way P)
    (result : α) : Prop where
  follows : (trace.program (Program.calls (.revising edits trace.choices) draws)).Follows way result
  admits : (Run.start draws [] : Run P W).AdmitsAll (.revising edits trace.choices) way

/-- A revision of a trace is an account of it. -/
theorem Revision.accounted {trace moved : Trace ℚ LogWeight α} {edits discard : Choices}
    {way way' : Way ℚ} {before after : List ℚ} (htrace : trace.Along way)
    (hmoved : moved.Along way')
    (h : trace.Revision edits moved discard (trace.drawn edits way'))
    (hdrawn : (trace.drawn edits way').DrawnFrom before after) :
    trace.Accounted moved edits discard
      (moved.score - trace.score - (trace.drawn edits way').score) (trace.drawn edits way') before
      after := by
  have hbefore (path : Path) := Choices.get?_flatten htrace.tidied path
  have hafter (path : Path) := Choices.get?_flatten hmoved.tidied path
  refine ⟨fun path value hedit => ?_, fun path value hedit hold hnew => ?_, ?_, fun path => ?_,
    hdrawn, fun path => ?_, rfl⟩
  · have hcovered := h.covers path (by rw [hedit]; rfl)
    obtain ⟨taken, htaken⟩ := Option.isSome_iff_exists.mp hcovered
    have hvalue := h.values path taken htaken
    rw [hedit] at hvalue
    rw [hafter, htaken, ← hvalue]
    rfl
  · rw [hafter] at hnew ⊢
    obtain ⟨taken, htaken⟩ := Option.isSome_iff_exists.mp hnew
    have hvalue := h.values path taken htaken
    rw [hedit, ← hbefore, hold] at hvalue
    rw [htaken, ← hvalue]
    rfl
  · exact List.pairwise_map.mpr ((List.pairwise_map.mp hmoved.distinct).filter _)
  · rw [h.fresh, hbefore, hafter]
  · rw [Choices.get?_flatten h.tidied, h.discards, hbefore, hafter]
    cases edits.flatten.get? path <;> cases moved.choices.at? path <;> rfl

/-- **Updates keep, overwrite, drop and draw the right choices.**  If an update gives a new trace,
the choices of both traces, the discard, the draws and the weight are accounted for.  A new run that
comes to a result makes such an update if it has visited all edits, and else the update fails and
names an edit that was left. -/
theorem update_accounted {grammar : Grammar ℚ} (hvalid : grammar.validate = .ok ())
    {program : Program ℚ α} (hlibrary : grammar.Library program)
    {trace : Trace ℚ LogWeight α} (htrace : program.Obtained trace) (edits : Choices)
    {supply : Supply ℚ} (hdraws : UnitDraws supply.draws) :
    (∀ moved weight discard rest,
      (trace.update edits).Yields supply (some moved, weight, discard) rest →
      ∃ way : Way ℚ, moved.Along way ∧ trace.Accounted moved edits discard weight
        (trace.drawn edits way) supply.draws rest.draws) ∧
    ∀ way result, trace.Reruns edits supply.draws way result →
      ((∀ path, (edits.flatten.get? path).isSome → (way.value? path).isSome) →
        ∃ moved weight discard rest, moved.Along way ∧ moved.result = result ∧
          (trace.update edits).Yields supply (some moved, weight, discard) rest) ∧
      ((∃ path, (edits.flatten.get? path).isSome ∧ way.value? path = none) →
        ∃ path, (edits.flatten.get? path).isSome ∧ way.value? path = none ∧
          (trace.update edits).Fails supply (.execution (.unvisited path))) := by
  have hfair := hlibrary.fair (Grammar.weighed_of_validate hvalid)
  have hsteady := hlibrary.steady
  obtain ⟨way, h⟩ := htrace.exists_along hfair hsteady
  rw [← htrace.program_eq] at hfair hsteady
  constructor
  · intro moved weight discard rest hupdate
    obtain ⟨way', h', hrevision, hdrawn, rfl⟩ := h.exists_revision hsteady hupdate
      fun _ _ hcompletes _ => hcompletes.possible hfair hdraws
    exact ⟨way', h', hrevision.accounted h h' hdrawn⟩
  intro way' result hreruns
  constructor
  · intro hcovered
    have hcompletes : Program.Completes (W := LogWeight) trace.program
        (.revising edits trace.choices) supply.draws way' result := by
      refine ⟨hreruns.follows, hreruns.admits, fun address haddress => ?_⟩
      rw [← Way.isSome_value?]
      exact hcovered address (Table.get?_isSome_of_mem_keys haddress)
    obtain ⟨records, hyields⟩ := hcompletes.yields
    exact ⟨_, _, _, _, hcompletes.along hsteady records (hcompletes.possible hfair hdraws), rfl,
      yields_update.mpr ⟨.ok result, _, hyields, rfl, rfl, rfl⟩⟩
  · rintro ⟨path, hedit, hnone⟩
    have hunvisited : ¬ ∀ address ∈ (Setting.revising edits trace.choices).constraints.keys,
        way'.addresses.contains address = true := by
      intro hall
      obtain ⟨entry, hentry, heq⟩ := Table.exists_of_get?_isSome hedit
      have hvisited := hall entry.1 (List.mem_map_of_mem hentry)
      rw [List.contains_congr heq, ← Way.isSome_value?, hnone] at hvisited
      cases hvisited
    obtain ⟨address, haddress, hmissed, hfails⟩ :=
      Program.fails_execute_of_unvisited hreruns.follows hreruns.admits hunvisited
    refine ⟨address, Table.get?_isSome_of_mem_keys haddress, ?_, hfails.bind _⟩
    rw [← Option.not_isSome_iff_eq_none, Way.isSome_value?, hmissed]
    exact Bool.false_ne_true

/-- An obligation for two colours becomes a norm, for whose colour a word and a text are drawn.  An
edit of a zone is not visited, since there is none in a norm. -/
theorem update_accounted_uneven :
    ∃ (trace moved : Trace ℚ LogWeight Tree) (edits others discard : Choices) (weight : LogWeight)
      (supply rest : Supply ℚ) (way : Way ℚ), UnitDraws supply.draws ∧
      Grammar.uneven.model.Obtained trace ∧
      (trace.update edits).Yields supply (some moved, weight, discard) rest ∧
      trace.Accounted moved edits discard weight (trace.drawn edits way) supply.draws rest.draws ∧
      ∃ path, (others.flatten.get? path).isSome ∧
        (trace.update others).Fails supply (.execution (.unvisited path)) := by
  have hunit : UnitDraws ([0, 1 / 2] : List ℚ) := by decide +kernel
  let others : Choices := .value (.text "zone") (.int 1) .empty
  obtain ⟨trace, moved, edits, discard, weight, rest, hobtained, hupdate⟩ := exists_update_uneven
  obtain ⟨way, -, haccounted⟩ :=
    (update_accounted Grammar.validate_uneven .model hobtained edits hunit).1 _ _ _ _ hupdate
  -- with an edit of a zone the run goes the way of the trace, whose choices are all in the tree
  have hweighed := Grammar.weighed_of_validate Grammar.validate_uneven
  obtain ⟨way', h⟩ := hobtained.exists_along (Grammar.fair_model hweighed)
    (Grammar.steady_model Grammar.uneven)
  have hapart (key : Value) : others.flatten.get? [.text "tree", key] = none := rfl
  have hlabelled := Grammar.labelled_model (h.follows_program hobtained.program_eq le_rfl)
  have hgiven : ∀ visit ∈ way',
      (Setting.revising others trace.choices).given visit.address = some visit.value := by
    intro visit hvisit
    obtain ⟨label, hlabel, key, haddress⟩ := hlabelled visit hvisit
    obtain rfl := List.mem_singleton.mp hlabel
    rw [given_revising h, haddress, hapart, Option.none_or, ← haddress, h.at?_choices,
      Way.value?_of_mem h.distinct hvisit]
  have hzone : way'.value? [.text "zone"] = none := Way.value?_eq_none fun visit hvisit => by
    obtain ⟨label, hlabel, key, haddress⟩ := hlabelled visit hvisit
    rw [haddress]
    simp
  obtain ⟨hfollows, hadmits⟩ := h.admits hgiven (⟨[0, 1 / 2], []⟩ : Supply ℚ).draws
  obtain ⟨path, hpath, -, hfails⟩ :=
    ((update_accounted Grammar.validate_uneven .model hobtained others hunit).2 way' trace.result
      ⟨hfollows, hadmits⟩).2 ⟨[.text "zone"], rfl, hzone⟩
  exact ⟨trace, moved, edits, others, discard, weight, _, rest, way, hunit, hobtained, hupdate,
    haccounted, path, hpath, hfails⟩

end Trace

end Deontic
