import Deontic.Proofs.Proposals
import Deontic.Proofs.Undoing
import Deontic.Proofs.Weighing

/-! Choices that lead forth and back.  A replacement that draws nothing and the choices that undo it
form an `Exchange`: each of the two rows of choices carries its trace to the other one and leaves
the other row (`Exchange.replace`).  Exchanges are symmetric, so a step that checks its move finds
nothing to object to, and comes to a weighing as soon as the choices that lead back have a score
(`Exchange.yields_weigh`). -/

namespace Deontic

variable {P W α : Type} [Scale P W]

/-- Choices with values at the places where proposals have them, and nowhere else. -/
structure Choices.Proposed (choices : Choices) : Prop where
  tidied : choices.Tidied
  parted : ∀ path, (choices.rekeyed "subtree" "subtree" path).or
    (choices.rekeyed "pick_node" "pick_node" path) = choices.at? path

namespace Choices

theorem Proposed.congr {choices others : Choices} (h : choices.Proposed) (htidied : others.Tidied)
    (hsame : ∀ path, others.at? path = choices.at? path) : others.Proposed := by
  refine ⟨htidied, fun path => ?_⟩
  rw [rekeyed_congr hsame, rekeyed_congr hsame, h.parted, hsame]

theorem Tidied.proposed_undoing {proposed discard : Choices} (h : proposed.Tidied)
    (hdiscard : discard.Tidied) : (proposed.undoing discard).Proposed := by
  refine ⟨h.undoing hdiscard, fun path => ?_⟩
  rw [rekeyed_undoing h hdiscard, if_pos rfl, rekeyed_undoing h hdiscard, if_neg (by decide),
    if_pos rfl, at?_undoing h hdiscard]

theorem flatten_edits_congr {a b : Choices} (ha : a.Tidied) (hb : b.Tidied)
    (hsame : ∀ path, a.at? path = b.at? path) (path : Path) :
    a.edits.flatten.get? path = b.edits.flatten.get? path := by
  rw [get?_flatten ha.edits, get?_flatten hb.edits, at?_edits ha, at?_edits hb, rekeyed_congr hsame]

end Choices

theorem Trace.Along.proposed {trace : Trace P W α} {way : Way P} (h : trace.Along way)
    (hlabelled : way.Labelled ["pick_node", "subtree"]) : trace.choices.Proposed :=
  ⟨h.tidied, (h.labelled hlabelled).or_rekeyed_eq⟩

/-- Choices that lead from one trace to another and back, picking the same node. -/
structure Exchange (trace moved : Trace P W Tree) (forth back : Choices) : Prop where
  before : ∃ way, trace.Along way
  after : ∃ way, moved.Along way
  leads : forth.Proposed
  returns : back.Proposed
  revision : trace.Revision forth.edits moved back.edits []
  picks : forth.rekeyed "pick_node" "pick_node" = back.rekeyed "pick_node" "pick_node"

/-- A revision that draws nothing is an exchange with the choices that undo it. -/
theorem Trace.Along.exchange {trace moved : Trace P W Tree} {way way' : Way P} (h : trace.Along way)
    (hlabelled : way.Labelled ["tree"]) (hmoved : moved.Along way') {forth discard : Choices}
    (hforth : forth.Proposed) (hrevision : trace.Revision forth.edits moved discard []) :
    Exchange trace moved forth (forth.undoing discard) := by
  have hundoing := hforth.tidied.proposed_undoing hrevision.tidied
  have hdiscard : discard.Labelled ["tree"] :=
    fun path hpath => h.labelled hlabelled path (hrevision.isSome_of_discard hpath)
  have hreturned (path : Path) : (forth.undoing discard).edits.at? path = discard.at? path := by
    rw [Choices.at?_edits hundoing.tidied, Choices.rekeyed_undoing hforth.tidied hrevision.tidied,
      if_pos rfl, hdiscard.rekeyed_eq]
  refine ⟨⟨way, h⟩, ⟨way', hmoved⟩, hforth, hundoing,
    hrevision.congr (fun _ => rfl) hundoing.tidied.edits hreturned, ?_⟩
  rw [Choices.rekeyed_undoing hforth.tidied hrevision.tidied, if_neg (by decide), if_pos rfl]

/-- A replacement that draws nothing is an exchange with the choices that undo it. -/
theorem Trace.Along.exchange_of_replace {grammar : Grammar ℚ} {trace moved : Trace ℚ LogWeight Tree}
    {forward : Trace ℚ LogWeight Proposal} {way way' : Way ℚ} (htrace : trace.Along way)
    (hmodel : trace.program = grammar.model) (hforward : forward.Along way')
    (hproposal : forward.program = grammar.proposal trace.result) {shown : String}
    {supply rest : Supply ℚ} {undo : Choices} {weight : LogWeight}
    (hmove : (trace.replace forward.choices shown).Yields supply (some moved, undo, weight) rest)
    (hdraws : rest.draws = supply.draws) :
    Exchange trace moved forward.choices undo ∧ weight = moved.score - trace.score - 0 := by
  have hlabelled : way.Labelled ["tree"] :=
    Grammar.labelled_model (htrace.follows_program hmodel le_rfl)
  have hlabelled' : way'.Labelled ["pick_node", "subtree"] :=
    Grammar.labelled_proposal (hforward.follows_program hproposal le_rfl)
  obtain ⟨discard, left, hupdate, rfl, rfl⟩ := Trace.yields_replace.mp hmove
  obtain ⟨_, hmoved, hrevision, hweight⟩ :=
    htrace.exists_undrawn_revision (hmodel ▸ grammar.steady_model) hupdate hdraws
  exact ⟨htrace.exchange hlabelled hmoved (hforward.proposed hlabelled') hrevision, hweight⟩

/-- Choices that edit nothing lead from a trace to itself. -/
theorem Trace.Along.exchange_self {trace : Trace P W Tree} {way : Way P} (h : trace.Along way)
    {forth : Choices} (hforth : forth.Proposed) (hedits : ∀ path, forth.edits.at? path = none) :
    Exchange trace trace forth forth := by
  have hnone (path : Path) : forth.edits.flatten.get? path = none :=
    (Choices.get?_flatten hforth.tidied.edits path).trans (hedits path)
  refine ⟨⟨way, h⟩, ⟨way, h⟩, hforth, hforth,
    ⟨rfl, fun path hpath => ?_, fun path value hvalue => ?_, fun path => ?_, hforth.tidied.edits,
      fun path => ?_⟩, rfl⟩
  · rw [hnone] at hpath
    cases hpath
  · rw [hnone, Option.none_or, hvalue]
    rfl
  · rw [hnone]
    cases trace.choices.at? path <;> rfl
  · rw [hnone, hedits]
    cases trace.choices.at? path <;> rfl

namespace Exchange

variable {trace moved : Trace P W Tree} {forth back : Choices}

theorem symm (h : Exchange trace moved forth back) : Exchange moved trace back forth :=
  ⟨h.after, h.before, h.returns, h.leads, h.revision.reverse h.leads.tidied.edits, h.picks.symm⟩

/-- An exchange depends on the choices that lead forth by their values alone. -/
theorem congr (h : Exchange trace moved forth back) {others : Choices} (htidied : others.Tidied)
    (hsame : ∀ path, others.at? path = forth.at? path) : Exchange trace moved others back := by
  refine ⟨h.before, h.after, h.leads.congr htidied hsame, h.returns,
    h.revision.congr (Choices.flatten_edits_congr htidied h.leads.tidied hsame) h.revision.tidied
      fun _ => rfl, ?_⟩
  rw [Choices.rekeyed_congr hsame, h.picks]

/-- The replacement by the choices that lead forth gives those that lead back. -/
theorem replace (h : Exchange trace moved forth back) (shown : String) (supply : Supply P) :
    ∃ undo records, (trace.replace forth shown).Yields supply
        (some moved, undo,
          Scale.minus P (Scale.minus P moved.score trace.score) (Scale.certain P))
        ⟨supply.draws, records⟩ ∧
      undo.Tidied ∧ ∀ path, undo.at? path = back.at? path := by
  obtain ⟨way, htrace⟩ := h.before
  obtain ⟨way', hmoved⟩ := h.after
  obtain ⟨records, discard, hupdate, hdiscard, hvalues⟩ :=
    h.revision.yields_update htrace hmoved supply
  have hforth := h.leads.tidied
  refine ⟨forth.undoing discard, _, Trace.yields_replace.mpr ⟨discard, _, hupdate, rfl, rfl⟩,
    hforth.undoing hdiscard, fun path => ?_⟩
  have hsubtree : discard.rekeyed "tree" "subtree" = back.rekeyed "subtree" "subtree" := by
    refine Choices.rekeyed_of_at? (fun path => ?_) "subtree"
    rw [hvalues, Choices.at?_edits h.returns.tidied]
  rw [Choices.at?_undoing hforth hdiscard, hsubtree, h.picks, h.returns.parted]

/-- No replacement by the choices that lead forth leads elsewhere. -/
theorem eq_of_replace (h : Exchange trace moved forth back) {shown : String}
    {supply rest : Supply P} {other : Trace P W Tree} {undo : Choices} {weight : W}
    (hmove : (trace.replace forth shown).Yields supply (some other, undo, weight) rest) :
    other = moved ∧ undo.Tidied ∧ ∀ path, undo.at? path = back.at? path := by
  obtain ⟨undo', records, hreplace, htidied, hvalues⟩ := h.replace shown supply
  obtain ⟨hother, hrest⟩ := Prod.mk.inj (hmove.unique hreplace).1
  obtain ⟨rfl, -⟩ := Prod.mk.inj hrest
  exact ⟨Option.some.inj hother, htidied, hvalues⟩

end Exchange

theorem Tree.beq_self (t : Tree) : (t == t) = true := by
  show t.same t = true
  induction t with
  | leaf => simp [same]
  | empty => rfl
  | branch kind left right stored ihl ihr => simp [same, ihl, ihr]

namespace Exchange

variable {grammar : Grammar ℚ} {trace moved : Trace ℚ LogWeight Tree} {forth back : Choices}

theorem possible (h : Exchange trace moved forth back) :
    Scale.isImpossible ℚ (moved.score - trace.score - 0) = false := by
  obtain ⟨_, htrace⟩ := h.before
  obtain ⟨_, hmoved⟩ := h.after
  rw [Scale.isImpossible_rat, LogWeight.sub_zero]
  exact LogWeight.sub_ne_bot hmoved.score_ne_bot htrace.score_ne_bot

/-- The check of a move by choices that lead forth has nothing to object to: it is the move by those
that lead back. -/
theorem yields_checkUndone (h : Exchange trace moved forth back) (grammar : Grammar ℚ)
    {undo : Choices}
    (htidied : undo.Tidied) (hvalues : ∀ path, undo.at? path = back.at? path) (shown : String)
    (supply : Supply ℚ) :
    ∃ records, (grammar.kernel.move.checkUndone trace forth shown moved undo
      (moved.score - trace.score - 0)).Yields supply () ⟨supply.draws, records⟩ := by
  obtain ⟨choices, records, hreturn, hreturned, hback⟩ :=
    (h.symm.congr htidied hvalues).replace shown supply
  have hchoices : (choices == forth) = true := Choices.beq_of_at? hreturned h.leads.tidied hback
  have hweight : Scale.close ℚ (trace.score - moved.score - 0)
      (Scale.negate ℚ (moved.score - trace.score - 0)) = true := by
    rw [LogWeight.sub_zero, LogWeight.sub_zero, Scale.negate_rat, LogWeight.neg_sub]
    exact beq_self_eq_true _
  exact ⟨records, Kernel.yields_checkUndone hreturn (Tree.beq_self trace.result) hchoices hweight⟩

/-- A step weighs a move by choices that lead forth and back, with its check if it makes one, once
the choices that lead back have a score. -/
theorem yields_weigh (h : Exchange trace moved forth back) {score : LogWeight}
    (hassess : (grammar.proposal moved.result).Assesses back.at? score)
    (proposed : LogWeight) (check : Bool) (shown : String) (supply : Supply ℚ) :
    ∃ undo records, (grammar.kernel.weigh check trace forth proposed shown).Yields supply
        (some ⟨moved, undo, moved.score - trace.score - 0, proposed, score⟩)
        ⟨supply.draws, records⟩ ∧
      undo.Tidied ∧ ∀ path, undo.at? path = back.at? path := by
  obtain ⟨undo, records, hmove, htidied, hvalues⟩ := h.replace shown supply
  have hundo (path : Path) : undo.flatten.get? path = back.at? path :=
    (Choices.get?_flatten htidied path).trans (hvalues path)
  cases check with
  | false =>
    obtain ⟨outcome, records', hassess⟩ := hassess undo ⟨supply.draws, records⟩ hundo
    exact ⟨undo, records', Kernel.yields_weigh hmove h.possible rfl hassess, htidied, hvalues⟩
  | true =>
    obtain ⟨records', hcheck⟩ :=
      h.yields_checkUndone grammar htidied hvalues shown ⟨supply.draws, records⟩
    obtain ⟨outcome, records'', hassess⟩ := hassess undo ⟨supply.draws, records'⟩ hundo
    exact ⟨undo, records'', Kernel.yields_weigh hmove h.possible hcheck hassess, htidied, hvalues⟩

/-- A step weighs a move by choices that lead forth, once those that lead back have a score. -/
theorem weighs (h : Exchange trace moved forth back) {score : LogWeight}
    (hassess : (grammar.proposal moved.result).Assesses back.at? score) {undo : Choices}
    (htidied : undo.Tidied) (hsame : ∀ path, undo.at? path = back.at? path) (proposed : LogWeight) :
    grammar.kernel.Weighs trace forth proposed moved undo
      (moved.score - trace.score - proposed + score) := by
  intro check shown supply
  obtain ⟨undo', records, hweigh, htidied', hvalues⟩ :=
    h.yields_weigh hassess proposed check shown supply
  refine ⟨_, records, hweigh, rfl,
    Choices.beq_of_at? htidied' htidied fun path => (hvalues path).trans (hsame path).symm, ?_⟩
  rw [Weighing.ratio, LogWeight.sub_zero]
  rfl

end Exchange

end Deontic
