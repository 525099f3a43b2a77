import Deontic.Proofs.Chains
import Deontic.Proofs.Exchange
import Deontic.Proofs.Records

/-! What the check of a move changes.  A move that takes no draw is an exchange, so its check passes
and leaves nothing but records (`Trace.Along.exchange_of_replace`).  A move that draws is taken back
with the drawn values among its choices, so its check finds more choices than the proposal made
(`fails_checkUndone_of_drawn`).  A checked step therefore fails exactly where the move takes draws
of its own, and is the unchecked step everywhere else (`step_checked`). -/

namespace Deontic

namespace Act

variable {P α β : Type}

/-- The computation fails for this reason. -/
def Fails (act : Act P α) (supply : Supply P) (fault : Fault) : Prop :=
  ∃ rest, act.run.run supply = (.error fault, rest)

theorem Fails.not_yields {act : Act P α} {supply rest : Supply P} {fault : Fault} {a : α}
    (h : act.Fails supply fault) : ¬ act.Yields supply a rest := by
  obtain ⟨left, hfails⟩ := h
  intro hyields
  cases hyields.symm.trans hfails

theorem Fails.unique {act : Act P α} {supply : Supply P} {fault fault' : Fault}
    (h : act.Fails supply fault) (k : act.Fails supply fault') : fault = fault' := by
  obtain ⟨rest, hfails⟩ := h
  obtain ⟨rest', kfails⟩ := k
  exact Except.error.inj (Prod.mk.inj (hfails.symm.trans kfails)).1

theorem fails_throw (fault : Fault) (supply : Supply P) :
    (throw fault : Act P α).Fails supply fault := ⟨supply, rfl⟩

theorem Fails.bind {act : Act P α} {supply : Supply P} {fault : Fault} (h : act.Fails supply fault)
    (f : α → Act P β) : (act >>= f).Fails supply fault := by
  obtain ⟨rest, hfails⟩ := h
  exact ⟨rest, run_bind_error hfails f⟩

theorem Yields.bind_fails {act : Act P α} {supply left : Supply P} {a : α}
    (h : act.Yields supply a left) {f : α → Act P β} {fault : Fault} (hf : (f a).Fails left fault) :
    (act >>= f).Fails supply fault := by
  obtain ⟨rest, hfails⟩ := hf
  exact ⟨rest, (h.run_bind f).trans hfails⟩

end Act

/-- Equal choices have values at the same paths. -/
theorem Choices.isSome_at?_of_beq {a b : Choices} (ha : a.Tidied) (hb : b.Tidied)
    (h : (a == b) = true) (path : Path) : (a.at? path).isSome = (b.at? path).isSome := by
  have hrel := Table.agrees_iff.mp h path
  rw [get?_flatten ha, get?_flatten hb] at hrel
  generalize a.at? path = first at hrel
  generalize b.at? path = second at hrel
  cases hrel <;> rfl

namespace Kernel

variable {P W α : Type} [Scale P W] [BEq α] [Shown α] {kernel : Kernel P W α}
  {trace moved : Trace P W α} {proposed undo : Choices} {shown : String} {weight : W}
  {supply : Supply P}

/-- The check fails if the move back makes other choices than the proposal. -/
theorem fails_checkUndone {back : Trace P W α} {choices : Choices} {backWeight : W}
    {rest : Supply P}
    (hmove : (kernel.move moved undo shown).Yields supply (some back, choices, backWeight) rest)
    (hresult : (back.result == trace.result) = true) (hchoices : (choices == proposed) = false) :
    (kernel.move.checkUndone trace proposed shown moved undo weight).Fails supply
      (.undo (.choices proposed choices)) := by
  refine hmove.bind_fails ?_
  have hresult : (back.result != trace.result) = false := by rw [bne, hresult]; rfl
  have hchoices : (choices != proposed) = true := by rw [bne, hchoices]; rfl
  simp only [hresult, hchoices, Bool.false_eq_true, if_false, if_true]
  exact (Act.fails_throw _ _).bind _

/-- A move whose check fails is not weighed. -/
theorem fails_weigh {forth : W} {left : Supply P} {fault : Fault}
    (hmove : (kernel.move trace proposed shown).Yields supply (some moved, undo, weight) left)
    (hpossible : Scale.isImpossible P weight = false)
    (hcheck : (kernel.move.checkUndone trace proposed shown moved undo weight).Fails left fault) :
    (kernel.weigh true trace proposed forth shown).Fails supply fault := by
  refine hmove.bind_fails ?_
  dsimp only
  rw [hpossible]
  exact hcheck.bind _

/-- On these draws, a step proposes a move that comes to a trace and takes draws of its own. -/
def MoveDraws (kernel : Kernel P W α) (trace : Trace P W α) (supply : Supply P) : Prop :=
  ∃ (forward : Trace P W Proposal) (middle left : Supply P) (moved : Trace P W α) (undo : Choices)
    (weight : W), (kernel.propose trace.result).simulate.Yields supply forward middle ∧
      (kernel.move trace forward.choices forward.result.written).Yields middle
        (some moved, undo, weight) left ∧
      left.draws ≠ middle.draws

end Kernel

namespace Grammar

variable {grammar : Grammar ℚ} {trace moved : Trace ℚ LogWeight Tree}
  {forward : Trace ℚ LogWeight Proposal} {way way' : Way ℚ} {shown : String}
  {supply rest : Supply ℚ} {undo : Choices} {weight : LogWeight}

/-- A move that takes no draw is weighed with its check as it is without. -/
theorem yields_weigh_checked (htrace : trace.Along way) (hmodel : trace.program = grammar.model)
    (hforward : forward.Along way') (hproposal : forward.program = grammar.proposal trace.result)
    {forth : LogWeight} {weighed : Option (Weighing ℚ LogWeight Tree)}
    (hundrawn : ∀ moved undo weight left, (trace.replace forward.choices shown).Yields supply
      (some moved, undo, weight) left → left.draws = supply.draws)
    (h : (grammar.kernel.weigh false trace forward.choices forth shown).Yields
      supply weighed rest) :
    ∃ records, (grammar.kernel.weigh true trace forward.choices forth shown).Yields supply weighed
      ⟨rest.draws, records⟩ := by
  obtain ⟨⟨moved, undo, weight⟩, left, hmove, h⟩ := Act.yields_bind.mp h
  cases moved with
  | none =>
    obtain ⟨rfl, rfl⟩ := Act.yields_pure.mp h
    exact ⟨left.records, Kernel.yields_weigh_none hmove⟩
  | some moved =>
    obtain ⟨hexchange, rfl⟩ := htrace.exchange_of_replace hmodel hforward hproposal hmove
      (hundrawn _ _ _ _ hmove)
    dsimp only at h
    rw [hexchange.possible] at h
    obtain ⟨⟨back, outcome⟩, _, hassess, hlast⟩ := Act.yields_bind.mp h
    obtain ⟨rfl, rfl⟩ := Act.yields_pure.mp hlast
    obtain ⟨records, hcheck⟩ := hexchange.yields_checkUndone grammar hexchange.returns.tidied
      (fun _ => rfl) shown left
    obtain ⟨later, hassess⟩ := Program.oblivious_assess _ _ hassess records
    exact ⟨later, Kernel.yields_weigh hmove hexchange.possible hcheck hassess⟩

/-- The choices that undo a replacement lead back to the trace, and leave those of the proposal with
what the replacement drew. -/
theorem exists_return {discard : Choices} {fresh : Way ℚ} (htrace : trace.Along way)
    (hmodel : trace.program = grammar.model) (hmoved : moved.Along way')
    {proposed : Choices} (hproposed : proposed.Tidied)
    (hrevision : trace.Revision proposed.edits moved discard fresh) (shown : String)
    (supply : Supply ℚ) :
    ∃ choices weight rest, (moved.replace (proposed.undoing discard) shown).Yields supply
        (some trace, choices, weight) rest ∧ choices.Tidied ∧
      ∀ key, choices.at? [.text "subtree", key] =
        (proposed.at? [.text "subtree", key]).or (fresh.value? [.text "tree", key]) := by
  have hundoing := hproposed.undoing hrevision.tidied
  have hdiscard : discard.Labelled ["tree"] := fun path hpath =>
    htrace.labelled (labelled_model (htrace.follows_program hmodel le_rfl)) path
      (hrevision.isSome_of_discard hpath)
  have hreturned (path : Path) :
      (proposed.undoing discard).edits.flatten.get? path = discard.at? path := by
    rw [Choices.get?_flatten hundoing.edits, Choices.at?_edits hundoing,
      Choices.rekeyed_undoing hproposed hrevision.tidied, if_pos rfl, hdiscard.rekeyed_eq]
  obtain ⟨records, back, hback, htidied, hvalues⟩ := htrace.replay hmoved hrevision.program
    (fun path value hvalue => by rw [hreturned]; exact hrevision.restores path value hvalue)
    (fun path hpath => by rw [hreturned] at hpath; exact hrevision.isSome_of_discard hpath) supply
  refine ⟨_, _, _, Trace.yields_replace.mpr ⟨back, _, hback, rfl, rfl⟩, hundoing.undoing htidied,
    fun key => ?_⟩
  have hpick : (proposed.undoing discard).rekeyed "pick_node" "pick_node" [.text "subtree", key] =
      none := rfl
  rw [Choices.at?_undoing hundoing htidied, Choices.rekeyed_text, hpick, Option.or_none, hvalues,
    hreturned, hrevision.displaces, Choices.get?_flatten hproposed.edits,
    Choices.at?_edits hproposed, Choices.rekeyed_text]

/-- The check of a move that takes draws finds the drawn values among the choices that lead back
from its outcome. -/
theorem fails_checkUndone_of_drawn (hweighed : grammar.Weighed) (htrace : trace.Along way)
    (hmodel : trace.program = grammar.model) (hforward : forward.Along way')
    (hdraws : UnitDraws supply.draws)
    (hmove : (trace.replace forward.choices shown).Yields supply (some moved, undo, weight) rest)
    (hdrawn : rest.draws ≠ supply.draws) :
    Scale.isImpossible ℚ weight = false ∧ ∃ choices,
      (grammar.kernel.move.checkUndone trace forward.choices shown moved undo weight).Fails rest
        (.undo (.choices forward.choices choices)) := by
  obtain ⟨discard, left, hupdate, rfl, rfl⟩ := Trace.yields_replace.mp hmove
  obtain ⟨way'', hmoved, hrevision, htaken, rfl⟩ :=
    htrace.exists_revision (hmodel ▸ grammar.steady_model) hupdate fun _ _ hcompletes _ =>
      hcompletes.possible (hmodel ▸ fair_model hweighed) hdraws
  generalize hfresh : trace.drawn forward.choices.edits way'' = fresh at hrevision htaken ⊢
  have hsubset : fresh ⊆ way'' := hfresh ▸ List.filter_sublist.subset
  have hscore : (fresh.score : LogWeight) ≠ ⊥ :=
    Way.score_ne_bot fun visit hvisit => hmoved.possible visit (hsubset hvisit)
  refine ⟨Scale.isImpossible_rat.mpr (LogWeight.sub_ne_bot
    (LogWeight.sub_ne_bot hmoved.score_ne_bot htrace.score_ne_bot) hscore), ?_⟩
  obtain ⟨choices, _, _, hback, htidied, hvalues⟩ := exists_return htrace hmodel hmoved
    hforward.tidied hrevision shown { left with records := .replaced shown (Scale.weightDouble ℚ
      (moved.score - trace.score - fresh.score)) :: left.records }
  refine ⟨choices, Kernel.fails_checkUndone hback (Tree.beq_self trace.result) ?_⟩
  -- a drawn value is among the choices that lead back, and the proposal has none at its place
  obtain ⟨visit, hvisit⟩ : ∃ visit, visit ∈ fresh := by
    refine List.exists_mem_of_ne_nil _ ?_
    rintro rfl
    exact hdrawn htaken.symm
  have hprogram : moved.program = grammar.model := hrevision.program.trans hmodel
  obtain ⟨label, hlabel, key, haddress⟩ :=
    labelled_model (hmoved.follows_program hprogram le_rfl) visit (hsubset hvisit)
  obtain rfl := List.mem_singleton.mp hlabel
  have hvalue : (fresh.value? [.text "tree", key]).isSome = true := by
    rw [← haddress, Way.isSome_value?]
    exact List.contains_iff_exists_mem_beq.mpr ⟨_, List.mem_map_of_mem hvisit, BEq.rfl⟩
  have hnone : forward.choices.at? [.text "subtree", key] = none := by
    have hunedited := hrevision.fresh [.text "tree", key]
    rw [Choices.get?_flatten hforward.tidied.edits, Choices.at?_edits hforward.tidied,
      Choices.rekeyed_text] at hunedited
    rw [← Option.not_isSome_iff_eq_none]
    intro hsome
    rw [hunedited, if_neg (by simp [Option.isNone_iff_eq_none, Option.isSome_iff_ne_none.mp hsome])]
      at hvalue
    cases hvalue
  rw [Bool.eq_false_iff]
  intro heq
  have hboth := Choices.isSome_at?_of_beq htidied hforward.tidied heq [.text "subtree", key]
  rw [hvalues, hnone, Option.none_or, hvalue] at hboth
  cases hboth

/-- **What the check of a step changes.**  On draws on which a step without its check comes to an
end, the step with its check fails, because the move is not undone, exactly if the move comes to a
trace and takes draws of its own.  Otherwise both steps come to the same trace, accept alike and
leave the same draws. -/
theorem step_checked (hvalid : grammar.validate = .ok ()) (htrace : grammar.model.Obtained trace)
    {supply rest : Supply ℚ} (hdraws : UnitDraws supply.draws)
    {next : Trace ℚ LogWeight Tree} {accepted : Bool}
    (hstep : (grammar.kernel.step false trace).Yields supply (next, accepted) rest) :
    ((∃ fault, (grammar.kernel.step true trace).Fails supply (.undo fault)) ↔
      grammar.kernel.MoveDraws trace supply) ∧
    (¬ grammar.kernel.MoveDraws trace supply → ∃ records,
      (grammar.kernel.step true trace).Yields supply (next, accepted) ⟨rest.draws, records⟩) := by
  have hweighed := weighed_of_validate hvalid
  obtain ⟨way, halong⟩ := htrace.exists_along (fair_model hweighed) grammar.steady_model
  have hforwards {forward : Trace ℚ LogWeight Proposal} {middle : Supply ℚ}
      (hforward : (grammar.kernel.propose trace.result).simulate.Yields supply forward middle) :
      (∃ way', forward.Along way') ∧ forward.program = grammar.proposal trace.result ∧
        UnitDraws middle.draws := by
    have hobtained : (grammar.proposal trace.result).Obtained forward := .simulate hdraws hforward
    exact ⟨hobtained.exists_along (fair_proposal hweighed _) (grammar.steady_proposal _),
      hobtained.program_eq, (Program.shortens_simulate _).unitDraws hforward hdraws⟩
  have hsame (hundrawn : ¬ grammar.kernel.MoveDraws trace supply) : ∃ records,
      (grammar.kernel.step true trace).Yields supply (next, accepted) ⟨rest.draws, records⟩ := by
    rw [Kernel.step_eq_weigh] at hstep ⊢
    obtain ⟨forward, middle, hforward, hstep⟩ := Act.yields_bind.mp hstep
    obtain ⟨weighed, last, hweigh, hend⟩ := Act.yields_bind.mp hstep
    obtain ⟨⟨way', halong'⟩, hproposal, -⟩ := hforwards hforward
    obtain ⟨records, hweigh⟩ := yields_weigh_checked halong htrace.program_eq halong' hproposal
      (fun moved undo weight left hmove => not_not.mp fun hdrawn =>
        hundrawn ⟨forward, middle, left, moved, undo, weight, hforward, hmove, hdrawn⟩) hweigh
    obtain ⟨later, hend⟩ := Kernel.oblivious_conclude _ _ hend records
    exact ⟨later, Act.yields_bind.mpr ⟨_, _, hforward, Act.yields_bind.mpr ⟨_, _, hweigh, hend⟩⟩⟩
  refine ⟨⟨fun ⟨fault, hfails⟩ => ?_, ?_⟩, hsame⟩
  · by_contra hundrawn
    obtain ⟨records, hyields⟩ := hsame hundrawn
    exact hfails.not_yields hyields
  · rintro ⟨forward, middle, left, moved, undo, weight, hforward, hmove, hdrawn⟩
    obtain ⟨⟨way', halong'⟩, -, hunit⟩ := hforwards hforward
    obtain ⟨hpossible, choices, hcheck⟩ := fails_checkUndone_of_drawn hweighed halong
      htrace.program_eq halong' hunit hmove hdrawn
    refine ⟨.choices forward.choices choices, ?_⟩
    rw [Kernel.step_eq_weigh]
    exact hforward.bind_fails ((Kernel.fails_weigh hmove hpossible hcheck).bind _)

/-- A grammar in which obligations have one part under the root rule and two below a norm. -/
def widening : Grammar ℚ where
  rules := .ofList
    [("NORMS", .ofList [("Norm", ["DUTY"]), ("Obl", ["COLOUR"])]),
     ("DUTY", .ofList [("Norm", ["COLOUR"]), ("Obl", ["COLOUR", "COLOUR"])]),
     ("COLOUR", .ofList [("Colour", [])])]
  wordWeights := .ofList
    [("NORMS", .ofList [("Norm", 1 / 2), ("Obl", 1 / 2)]),
     ("DUTY", .ofList [("Norm", 1 / 2), ("Obl", 1 / 2)]), ("COLOUR", .ofList [("Colour", 1)])]
  textWeights := .ofList [("Colour", .ofList [("red", 1 / 3), ("blue", 2 / 3)])]
  root := "NORMS"
  vocabulary := .standard

theorem validate_widening : widening.validate = .ok () := validate_of_isOk (by decide +kernel)

/-- Below a norm an obligation for one colour is proposed, and the second colour that it needs there
is drawn.  The step that does not check its move comes to an end, and the one that does fails. -/
theorem step_checked_widening :
    ∃ (trace next : Trace ℚ LogWeight Tree) (supply rest : Supply ℚ),
      widening.model.Obtained trace ∧ UnitDraws supply.draws ∧
      (widening.kernel.step false trace).Yields supply (next, false) rest ∧
      widening.kernel.MoveDraws trace supply ∧
      ∃ fault, (widening.kernel.step true trace).Fails supply (.undo fault) := by
  have hunit : UnitDraws ([0, 0, 0, 0] : List ℚ) := by decide +kernel
  have hunit' : UnitDraws ([1 / 2, 0, 0, 1 / 2, 0, 0, 0, 0, 0] : List ℚ) := by decide +kernel
  have hruns : widening.model.simulate.any ⟨[0, 0, 0, 0], []⟩
      (fun (trace : Trace ℚ LogWeight Tree) _ =>
        (widening.kernel.step false trace).any ⟨[1 / 2, 0, 0, 1 / 2, 0, 0, 0, 0, 0], []⟩
          (fun next _ => !next.2) &&
        (widening.kernel.propose trace.result).simulate.any
          ⟨[1 / 2, 0, 0, 1 / 2, 0, 0, 0, 0, 0], []⟩
          fun (forward : Trace ℚ LogWeight Proposal) middle =>
            (widening.kernel.move trace forward.choices forward.result.written).any middle
              fun moved left => moved.1.isSome && left.draws != middle.draws) = true := by
    decide +kernel
  obtain ⟨trace, _, htrace, hall⟩ := Act.exists_yields hruns
  obtain ⟨hsteps, hmoves⟩ := Bool.and_eq_true_iff.mp hall
  obtain ⟨⟨next, accepted⟩, rest, hstep, haccepted⟩ := Act.exists_yields hsteps
  obtain rfl : accepted = false := (Bool.not_eq_true' accepted).mp haccepted
  obtain ⟨forward, middle, hforward, hmoves⟩ := Act.exists_yields hmoves
  obtain ⟨⟨moved, undo, weight⟩, left, hmove, hall⟩ := Act.exists_yields hmoves
  obtain ⟨hmoved, hleft⟩ := Bool.and_eq_true_iff.mp hall
  obtain ⟨moved, rfl⟩ := Option.isSome_iff_exists.mp hmoved
  have hobtained : widening.model.Obtained trace := .simulate hunit htrace
  have hdraws : widening.kernel.MoveDraws trace ⟨[1 / 2, 0, 0, 1 / 2, 0, 0, 0, 0, 0], []⟩ :=
    ⟨forward, _, _, moved, undo, weight, hforward, hmove, bne_iff_ne.mp hleft⟩
  exact ⟨trace, next, _, rest, hobtained, hunit', hstep, hdraws,
    (step_checked validate_widening hobtained hunit' hstep).1.mpr hdraws⟩

end Grammar

end Deontic
