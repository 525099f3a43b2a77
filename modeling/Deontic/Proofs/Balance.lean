import Deontic.Proofs.Exchange

/-! Detailed balance of replacements.  The proposal that undoes a replacement picks the same node
(`Opposed.index_eq`), and carried out it leads back to the trace and to the proposal that led forth
(`Opposed.replace`).  So the log-ratios of both directions are opposite, and what a trace, a
proposal and its acceptance weigh together is the same in both directions. -/

namespace Deontic

variable {P W α : Type} [Scale P W]

/-! ### Opposed proposals -/

/-- Proposals that lead from one trace to another and back, picking the same node. -/
structure Opposed (trace moved : Trace P W Tree) (forward backward : Trace P W Proposal) :
    Prop where
  before : ∃ way, trace.Along way
  after : ∃ way, moved.Along way
  forth : ∃ way, forward.Along way ∧ way.Labelled ["pick_node", "subtree"]
  back : ∃ way, backward.Along way ∧ way.Labelled ["pick_node", "subtree"]
  revision : trace.Revision forward.choices.edits moved backward.choices.edits []
  picks : forward.choices.rekeyed "pick_node" "pick_node" =
    backward.choices.rekeyed "pick_node" "pick_node"

namespace Opposed

variable {trace moved : Trace P W Tree} {forward backward : Trace P W Proposal}

theorem symm (h : Opposed trace moved forward backward) :
    Opposed moved trace backward forward := by
  obtain ⟨way, hforward, -⟩ := h.forth
  exact ⟨h.after, h.before, h.back, h.forth, h.revision.reverse hforward.tidied.edits,
    h.picks.symm⟩

theorem exchange (h : Opposed trace moved forward backward) :
    Exchange trace moved forward.choices backward.choices := by
  obtain ⟨_, hforward, hforth⟩ := h.forth
  obtain ⟨_, hbackward, hback⟩ := h.back
  exact ⟨h.before, h.after, hforward.proposed hforth, hbackward.proposed hback, h.revision, h.picks⟩

/-- The replacement by one of opposed proposals gives the other one. -/
theorem replace (h : Opposed trace moved forward backward) {proposed : Choices}
    (htidied : proposed.Tidied) (hsame : ∀ path, proposed.at? path = forward.choices.at? path)
    (shown : String) (supply : Supply P) :
    ∃ undo records, (trace.replace proposed shown).Yields supply
        (some moved, undo,
          Scale.minus P (Scale.minus P moved.score trace.score) (Scale.certain P))
        ⟨supply.draws, records⟩ ∧
      undo.Tidied ∧ ∀ path, undo.at? path = backward.choices.at? path :=
  (h.exchange.congr htidied hsame).replace shown supply

end Opposed

/-- A step weighs a move by one of opposed proposals, with its check if it makes one. -/
theorem Opposed.weighs {grammar : Grammar ℚ} {trace moved : Trace ℚ LogWeight Tree}
    {forward backward : Trace ℚ LogWeight Proposal} (h : Opposed trace moved forward backward)
    (hprogram : backward.program = grammar.proposal moved.result) {proposed undo : Choices}
    (htidied : proposed.Tidied) (hsame : ∀ path, proposed.at? path = forward.choices.at? path)
    (hundo : undo.Tidied) (hsame' : ∀ path, undo.at? path = backward.choices.at? path)
    (forth : LogWeight) :
    grammar.kernel.Weighs trace proposed forth moved undo
      (moved.score - trace.score - forth + backward.score) := by
  obtain ⟨_, hbackward, -⟩ := h.back
  have hassess : (grammar.proposal moved.result).Assesses backward.choices.at? backward.score :=
    hprogram ▸ hbackward.assesses
  exact (h.exchange.congr htidied hsame).weighs hassess hundo hsame' forth

/-- Opposed proposals pick the same index. -/
theorem Opposed.index_eq {grammar : Grammar P} {trace moved : Trace P W Tree}
    {forward backward : Trace P W Proposal} (h : Opposed trace moved forward backward)
    (hforward : forward.program = grammar.proposal trace.result)
    (hbackward : backward.program = grammar.proposal moved.result) :
    backward.result.index = forward.result.index := by
  obtain ⟨way, halong, -⟩ := h.forth
  obtain ⟨way', halong', -⟩ := h.back
  obtain ⟨walk, picked, hpicked, hindex, hmem⟩ :=
    Grammar.exists_walk_of_follows_proposal (halong.follows_program hforward le_rfl)
  obtain ⟨walk', picked', hpicked', hindex', hmem'⟩ :=
    Grammar.exists_walk_of_follows_proposal (halong'.follows_program hbackward le_rfl)
  rw [hindex, hindex']
  symm
  apply hpicked.index_eq hpicked' fun path => forward.choices.at? (.text "pick_node" :: path)
  · intro visit hvisit
    rw [halong.at?_choices]
    exact Way.value?_of_mem halong.distinct (hmem visit hvisit)
  · intro visit hvisit
    obtain ⟨key, hkey⟩ := hpicked'.single visit hvisit
    rw [hkey, ← Choices.rekeyed_text _ "pick_node" "pick_node", h.picks, Choices.rekeyed_text,
      halong'.at?_choices, ← hkey]
    exact Way.value?_of_mem halong'.distinct (hmem' visit hvisit)

/-- The choices that undo a replacement which draws nothing are, if a proposal can make them at all,
those of the opposed proposal. -/
theorem Trace.Along.exists_opposed {grammar : Grammar ℚ} {trace moved : Trace ℚ LogWeight Tree}
    {forward : Trace ℚ LogWeight Proposal} {way way' : Way ℚ} (htrace : trace.Along way)
    (hmodel : trace.program = grammar.model) (hforward : forward.Along way')
    (hproposal : forward.program = grammar.proposal trace.result) {shown : String}
    {supply rest : Supply ℚ} {undo : Choices} {weight : LogWeight}
    (hmove : (trace.replace forward.choices shown).Yields supply (some moved, undo, weight) rest)
    (hdraws : rest.draws = supply.draws) {before after : Supply ℚ} {score : LogWeight}
    {outcome : Option Proposal}
    (hassess : ((grammar.proposal moved.result).assess undo).Yields before (score, outcome) after)
    (hscore : score ≠ ⊥) :
    ∃ backward, Opposed trace moved forward backward ∧
      backward.program = grammar.proposal moved.result ∧ backward.score = score ∧
      outcome = some backward.result ∧ undo.Tidied ∧
      ∀ path, undo.at? path = backward.choices.at? path := by
  have hlabelled : way'.Labelled ["pick_node", "subtree"] :=
    Grammar.labelled_proposal (hforward.follows_program hproposal le_rfl)
  obtain ⟨hexchange, -⟩ := htrace.exchange_of_replace hmodel hforward hproposal hmove hdraws
  have htidied := hexchange.returns.tidied
  obtain ⟨backward, way'', hbackward, hprogram, rfl, rfl, hvalues⟩ :=
    Program.exists_along_of_assess (grammar.steady_proposal moved.result) hassess hscore
  simp only [Choices.get?_flatten htidied] at hvalues
  have hlabelled' : way''.Labelled ["pick_node", "subtree"] :=
    Grammar.labelled_proposal (hbackward.follows_program hprogram le_rfl)
  have hopposed := (hexchange.symm.congr hbackward.tidied hvalues).symm
  exact ⟨backward, ⟨hexchange.before, hexchange.after, ⟨_, hforward, hlabelled⟩,
    ⟨_, hbackward, hlabelled'⟩, hopposed.revision, hopposed.picks⟩, hprogram, rfl, rfl, htidied,
    fun path => (hvalues path).symm⟩

namespace Grammar

/-- **Detailed balance.**  If a proposal moves a trace without a draw, and the choices that undo the
move can be made by a proposal from the new trace, then they are a proposal there that picks the
same index and moves back to the trace and to the first proposal.  The log-ratios of both steps are
opposite, and trace, proposal and acceptance weigh the same in both directions. -/
theorem detailed_balance {grammar : Grammar ℚ} (hvalid : grammar.validate = .ok ())
    {trace moved : Trace ℚ LogWeight Tree} (htrace : grammar.model.Obtained trace)
    {forward : Trace ℚ LogWeight Proposal}
    (hforward : (grammar.proposal trace.result).Obtained forward) {shown : String}
    {supply rest : Supply ℚ} {undo : Choices} {weight : LogWeight}
    (hmove : (trace.replace forward.choices shown).Yields supply (some moved, undo, weight) rest)
    (hdraws : rest.draws = supply.draws) {before after : Supply ℚ} {score : LogWeight}
    {outcome : Option Proposal}
    (hassess : ((grammar.proposal moved.result).assess undo).Yields before (score, outcome) after)
    (hscore : score ≠ ⊥) :
    ∃ (backward : Trace ℚ LogWeight Proposal) (ratio : LogWeight),
      (grammar.proposal moved.result).Obtained backward ∧ (backward.choices == undo) = true ∧
      backward.score = score ∧ outcome = some backward.result ∧
      backward.result.index = forward.result.index ∧
      (∀ (shown : String) (later : Supply ℚ), ∃ choices records,
        (moved.replace undo shown).Yields later (some trace, choices, -weight)
            ⟨later.draws, records⟩ ∧ (choices == forward.choices) = true) ∧
      grammar.kernel.Weighs trace forward.choices forward.score moved undo ratio ∧
      grammar.kernel.Weighs moved undo score trace forward.choices (-ratio) ∧
      trace.score + forward.score + min 0 ratio = moved.score + score + min 0 (-ratio) := by
  have hweighed := weighed_of_validate hvalid
  obtain ⟨_, htraced⟩ := htrace.exists_along (fair_model hweighed) grammar.steady_model
  obtain ⟨_, hforwarded⟩ := hforward.exists_along (fair_proposal hweighed trace.result)
    (grammar.steady_proposal trace.result)
  obtain ⟨backward, h, hprogram, rfl, rfl, hundo, hsame⟩ := htraced.exists_opposed
    htrace.program_eq hforwarded hforward.program_eq hmove hdraws hassess hscore
  obtain ⟨_, hmoved⟩ := h.after
  obtain ⟨_, hbackward, -⟩ := h.back
  have hweight : weight = moved.score - trace.score := by
    obtain ⟨_, _, hagain, -⟩ := h.replace hforwarded.tidied (fun _ => rfl) shown supply
    have hsame := (Prod.mk.inj (Prod.mk.inj (hmove.unique hagain).1).2).2
    exact hsame.trans (LogWeight.sub_zero _)
  -- what is shown of one direction holds of the other, because opposed proposals are symmetric
  refine ⟨backward, moved.score - trace.score - forward.score + backward.score,
    hprogram ▸ hbackward.obtained,
    Choices.beq_of_at? hbackward.tidied hundo fun path => (hsame path).symm, rfl, rfl,
    h.index_eq hforward.program_eq hprogram, fun shown later => ?_,
    h.weighs hprogram hforwarded.tidied (fun _ => rfl) hundo hsame forward.score, ?_, ?_⟩
  · obtain ⟨choices, records, hback, htidied, hvalues⟩ := h.symm.replace hundo hsame shown later
    have hopposite : trace.score - moved.score - 0 = -weight := by
      rw [hweight, LogWeight.neg_sub, LogWeight.sub_zero]
    exact ⟨choices, records, hopposite ▸ hback,
      Choices.beq_of_at? htidied hforwarded.tidied hvalues⟩
  · have hopposite : -(moved.score - trace.score - forward.score + backward.score) =
        trace.score - moved.score - backward.score + forward.score := by
      rw [LogWeight.sub_sub_add, LogWeight.sub_sub_add, LogWeight.neg_sub]
    rw [hopposite]
    exact h.symm.weighs hforward.program_eq hundo hsame hforwarded.tidied (fun _ => rfl)
      backward.score
  · have hforth := LogWeight.add_ne_bot htraced.score_ne_bot hforwarded.score_ne_bot
    have hback := LogWeight.add_ne_bot hmoved.score_ne_bot hbackward.score_ne_bot
    rw [LogWeight.sub_sub_add, LogWeight.neg_sub, LogWeight.add_min_sub hforth,
      LogWeight.add_min_sub hback, min_comm]

/-- An obligation for two colours is moved to a norm with an obligation for one. -/
theorem detailed_balance_uneven :
    ∃ (trace moved : Trace ℚ LogWeight Tree) (forward : Trace ℚ LogWeight Proposal) (undo : Choices)
      (weight score : LogWeight) (outcome : Option Proposal) (rest before after : Supply ℚ),
      uneven.model.Obtained trace ∧ (uneven.proposal trace.result).Obtained forward ∧
      (trace.replace forward.choices "").Yields ⟨[], []⟩ (some moved, undo, weight) rest ∧
      rest.draws = [] ∧
      ((uneven.proposal moved.result).assess undo).Yields before (score, outcome) after ∧
      score ≠ ⊥ ∧ ∃ ratio,
        uneven.kernel.Weighs trace forward.choices forward.score moved undo ratio ∧
        uneven.kernel.Weighs moved undo score trace forward.choices (-ratio) := by
  have hunit : UnitDraws ([1 / 2, 0, 1 / 3, 0, 2 / 3] : List ℚ) := by decide +kernel
  have hunit' : UnitDraws ([0, 0, 0, 0, 1 / 2] : List ℚ) := by decide +kernel
  have hruns : uneven.model.simulate.any ⟨[1 / 2, 0, 1 / 3, 0, 2 / 3], []⟩
      (fun (trace : Trace ℚ LogWeight Tree) _ =>
        (uneven.proposal trace.result).simulate.any ⟨[0, 0, 0, 0, 1 / 2], []⟩
          fun (forward : Trace ℚ LogWeight Proposal) _ =>
            (trace.replace forward.choices "").any ⟨[], []⟩ fun replaced rest =>
              rest.draws == [] && replaced.1.any fun moved =>
                ((uneven.proposal moved.result).assess replaced.2.1).any rest
                  fun (found : LogWeight × Option Proposal) _ => found.1 != ⊥) = true := by
    decide +kernel
  obtain ⟨trace, _, htrace, hruns⟩ := Act.exists_yields hruns
  obtain ⟨forward, _, hforward, hruns⟩ := Act.exists_yields hruns
  obtain ⟨⟨moved?, undo, weight⟩, rest, hmove, hruns⟩ := Act.exists_yields hruns
  obtain ⟨hdraws, hruns⟩ := Bool.and_eq_true_iff.mp hruns
  obtain ⟨moved, rfl, hruns⟩ := (Option.any_eq_true _ _).mp hruns
  obtain ⟨⟨score, outcome⟩, _, hassess, hscore⟩ := Act.exists_yields hruns
  have hdraws := eq_of_beq hdraws
  have hscore := bne_iff_ne.mp hscore
  obtain ⟨_, ratio, -, -, -, -, -, -, hforth, hback, -⟩ :=
    detailed_balance validate_uneven (.simulate hunit htrace) (.simulate hunit' hforward) hmove
      hdraws hassess hscore
  exact ⟨_, _, _, _, _, _, _, _, _, _, .simulate hunit htrace, .simulate hunit' hforward, hmove,
    hdraws, hassess, hscore, ratio, hforth, hback⟩

end Grammar

end Deontic
