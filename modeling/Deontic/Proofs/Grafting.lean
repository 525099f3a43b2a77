import Deontic.Proofs.Balance
import Deontic.Proofs.Evenness

/-! When a replacement grafts the proposed tree. -/

namespace Deontic

variable {P W : Type} [Scale P W]

open Deontic.Tree

namespace Grammar

variable {grammar : Grammar P} {trace : Trace P W Tree} {forward : Trace P W Proposal}

/-- The edits of a proposal are the choices of its growth. -/
theorem at?_edits_of_along {walk growth : Way P} {index : Int}
    (h : forward.Along (walk.under (.text "pick_node") ++ growth.under (.text "subtree")))
    (hgrowth : Within index growth.addresses) (path : Path) :
    forward.choices.edits.at? path = Way.value? (growth.under (.text "tree")) path := by
  rw [Choices.at?_edits h.tidied]
  refine Choices.rekeyed_eq_value? hgrowth.address_ne_nil (fun next rest => ?_) path
  rw [h.at?_choices, Way.value?_text, if_neg (by decide), if_pos rfl]

end Grammar

/-- A proposal that picks the place of a site and grows the tree of the site there. -/
structure Site.Proposed {grammar : Grammar P} {trace : Trace P W Tree} {edits : Choices}
    (site : Site grammar trace edits) (forward : Trace P W Proposal) (walk : Way P) : Prop where
  picked : Picked false false trace.result 1 1 walk ⟨site.node, site.index, forward.result.depth⟩
  regrowth : grammar.regrowthRule site.node = .ok site.rule
  along : forward.Along (walk.under (.text "pick_node") ++ site.growth.under (.text "subtree"))
  node : forward.result.node = site.node
  index : forward.result.index = site.index
  subtree : forward.result.subtree = site.subtree

namespace Grammar

/-- A trace of the model and a proposal for a part that is not missing are a site. -/
theorem exists_site {grammar : Grammar P} {trace : Trace P W Tree} {forward : Trace P W Proposal}
    {way way' : Way P} (hnames : grammar.Distinguished) (htrace : trace.Along way)
    (hmodel : trace.program = grammar.model) (hforward : forward.Along way')
    (hproposal : forward.program = grammar.proposal trace.result)
    (hnode : forward.result.node.shape ≠ .empty) :
    ∃ (site : Site grammar trace forward.choices.edits) (walk : Way P),
      site.Proposed forward walk ∧
        way' = walk.under (.text "pick_node") ++ site.growth.under (.text "subtree") := by
  obtain ⟨whole, rfl, hwhole, -⟩ := exists_grown_of_model htrace hmodel
  obtain ⟨walk, picked, hpicked, hpickedNode, hindex, hdepth, hgrowth⟩ :=
    exists_of_follows_proposal (hforward.follows_program hproposal le_rfl)
  rw [hpickedNode] at hnode
  obtain ⟨steps, hsteps, hfollow⟩ := hpicked.exists_descend
  obtain ⟨gap, before, inner, after, plug, haround, hinside, rfl, hresult⟩ :=
    hwhole.exists_around hfollow hnode
  rcases hgrowth with ⟨hempty, -, -⟩ | ⟨-, rule, growth, hrule, hgrown, rfl⟩
  · exact (hnode hempty).elim
  rw [hsteps] at hgrown
  have hgrown := Grown.of_follows hgrown
  have hlikely : ∀ visit ∈ growth, Scale.isImpossible P (visit.density : W) = false := by
    intro visit hvisit
    apply hforward.possible (visit.under (.text "subtree"))
    exact List.mem_append_right _ (List.mem_map_of_mem hvisit)
  have hwalk : Picked false false trace.result 1 1 walk
      ⟨picked.node, descend 1 steps, forward.result.depth⟩ := by
    rw [← hsteps, hdepth]
    exact hpicked
  exact ⟨⟨steps, gap, before, inner, after, plug, picked.node, haround, hinside, htrace, hmodel,
    hresult, rule, growth, forward.result.subtree, hgrown, hlikely,
    hforward.tidied.edits, at?_edits_of_along hforward hgrown.within, hnames⟩, walk,
    ⟨hwalk, hrule, hforward, hpickedNode, hindex.trans hsteps, rfl⟩, rfl⟩

end Grammar

/-- A replacement grafts the proposed tree: it takes no draw, and it is impossible, or it gives the
earlier tree with the proposed one at the picked index and the earlier choices everywhere else. -/
def Trace.Grafts (trace : Trace P W Tree) (forward : Trace P W Proposal) (shown : String)
    (supply : Supply P) : Prop :=
  ∃ moved undo weight rest,
    (trace.replace forward.choices shown).Yields supply (moved, undo, weight) rest ∧
      rest.draws = supply.draws ∧
      match moved with
      | none => weight = Scale.impossible P
      | some moved =>
        trace.result.replaceAt forward.result.index forward.result.subtree = .ok moved.result ∧
          ∀ path, Grammar.Outside forward.result.index path →
            moved.choices.at? path = trace.choices.at? path

theorem Site.grafts_iff_hosts {grammar : Grammar P} {trace : Trace P W Tree}
    {forward : Trace P W Proposal} (site : Site grammar trace forward.choices.edits)
    (hindex : site.index = forward.result.index) (hsubtree : site.subtree = forward.result.subtree)
    (shown : String) (supply : Supply P) :
    trace.Grafts forward shown supply ↔ grammar.Hosts W (trace.found forward.choices.edits)
      forward.result.index site.gap forward.result.subtree := by
  rw [Trace.Grafts, ← hindex, ← hsubtree]
  constructor
  · rintro ⟨moved, undo, weight, rest, hreplace, hdraws, hmoved⟩
    obtain ⟨discard, left, hupdate, rfl, rfl⟩ := Trace.yields_replace.mp hreplace
    cases moved with
    | none => exact site.hosts_of_none hupdate hdraws
    | some moved => exact site.hosts_of_some hupdate hdraws hmoved.1
  · intro hhosts
    cases hhosts with
    | derived hgrown hvalues =>
      obtain ⟨moved, weight, discard, records, hupdate, hmoved⟩ :=
        site.yields_some hgrown hvalues supply
      exact ⟨_, _, _, _, Trace.yields_replace.mpr ⟨discard, _, hupdate, rfl, rfl⟩, rfl, hmoved⟩
    | barred hbegun hvalues hvalue himpossible =>
      obtain ⟨discard, records, hupdate⟩ :=
        site.yields_none hbegun hvalues hvalue himpossible supply
      exact ⟨_, _, _, _, Trace.yields_replace.mpr ⟨discard, _, hupdate, rfl, rfl⟩, rfl, rfl⟩

/-- The rule of the place is the one that the trace has at its index. -/
theorem Site.ruleBelow_eq {grammar : Grammar P} {trace : Trace P W Tree} {edits : Choices}
    (site : Site grammar trace edits) :
    grammar.ruleBelow (fun address => trace.choices.at? (.text "tree" :: address)) 1 grammar.root
      (route site.index.toNat) = some site.gap := by
  rw [Site.index, route_descend_one]
  apply site.around.ruleBelow_eq
  intro visit hvisit
  rw [site.along.at?_choices]
  exact Way.value?_of_mem site.along.distinct
    (List.mem_map_of_mem (f := Visit.under _) (List.mem_append_left _ hvisit))

/-- In an even grammar, the rule of the place takes the proposed tree. -/
theorem Site.hosts_of_even {grammar : Grammar ℚ} {trace : Trace ℚ LogWeight Tree} {edits : Choices}
    (site : Site grammar trace edits) (h : grammar.Ready) (heven : grammar.Even) :
    grammar.Hosts LogWeight (trace.found edits) site.index site.gap site.subtree :=
  site.grown.hosts h heven
    (fun visit hvisit => ⟨site.found_growth visit hvisit, site.likely visit hvisit⟩)
    site.inside.contains

/-- A proposal for a missing part leads from the trace to itself. -/
theorem Trace.Along.exchange_of_empty {grammar : Grammar P} {trace : Trace P W Tree}
    {forward : Trace P W Proposal} {way way' : Way P} (htrace : trace.Along way)
    (hforward : forward.Along way') (hproposal : forward.program = grammar.proposal trace.result)
    (hnode : forward.result.node.shape = .empty) :
    Exchange trace trace forward.choices forward.choices := by
  have hfollows := hforward.follows_program hproposal le_rfl
  have hproposed := hforward.proposed (Grammar.labelled_proposal hfollows)
  obtain ⟨walk, picked, -, hpicked, -, -, hgrowth⟩ := Grammar.exists_of_follows_proposal hfollows
  rw [hpicked] at hnode
  rcases hgrowth with ⟨-, rfl, -⟩ | ⟨hne, -⟩
  · have hwalk :
        forward.Along (walk.under (.text "pick_node") ++ Way.under (.text "subtree") []) := by
      rwa [show Way.under (.text "subtree") ([] : Way P) = [] from rfl, List.append_nil]
    exact htrace.exchange_self hproposed (Grammar.at?_edits_of_along hwalk (Grammar.within_nil 1))
  · exact (hne hnode).elim

/-- A missing part stays missing. -/
theorem Trace.Along.grafts_of_empty {grammar : Grammar P} {trace : Trace P W Tree}
    {forward : Trace P W Proposal} {way way' : Way P} (htrace : trace.Along way)
    (hmodel : trace.program = grammar.model) (hforward : forward.Along way')
    (hproposal : forward.program = grammar.proposal trace.result)
    (hnode : forward.result.node.shape = .empty) (shown : String) (supply : Supply P) :
    trace.Grafts forward shown supply := by
  obtain ⟨_, _, hreplace, -⟩ :=
    (htrace.exchange_of_empty hforward hproposal hnode).replace shown supply
  refine ⟨some trace, _, _, _, hreplace, rfl, ?_, fun _ _ => rfl⟩
  obtain ⟨whole, rfl, hwhole, -⟩ := Grammar.exists_grown_of_model htrace hmodel
  obtain ⟨_, picked, hpicked, hpickedNode, hindex, -, hgrowth⟩ :=
    Grammar.exists_of_follows_proposal (hforward.follows_program hproposal le_rfl)
  rw [hpickedNode] at hnode
  rcases hgrowth with ⟨-, -, hsubtree⟩ | ⟨hne, -⟩
  · obtain ⟨steps, hsteps, hfollow⟩ := hpicked.exists_descend
    rw [hindex, hsubtree, hsteps, replaceAt_descend]
    exact hwhole.sound.regrow_self hfollow
  · exact (hne hnode).elim

namespace Grammar

theorem exists_site_of_obtained {grammar : Grammar ℚ} (hvalid : grammar.validate = .ok ())
    (hstandard : grammar.vocabulary = .standard) {trace : Trace ℚ LogWeight Tree}
    (htrace : grammar.model.Obtained trace) {forward : Trace ℚ LogWeight Proposal}
    (hforward : (grammar.proposal trace.result).Obtained forward) :
    (forward.result.node.shape = .empty ∧ ∀ shown supply, trace.Grafts forward shown supply) ∨
      forward.result.node.shape ≠ .empty ∧ ∃ site : Site grammar trace forward.choices.edits,
        site.index = forward.result.index ∧ site.subtree = forward.result.subtree := by
  have hweighed := weighed_of_validate hvalid
  obtain ⟨_, htraced⟩ := htrace.exists_along (fair_model hweighed) grammar.steady_model
  obtain ⟨_, hforwarded⟩ := hforward.exists_along (fair_proposal hweighed trace.result)
    (grammar.steady_proposal trace.result)
  by_cases hnode : forward.result.node.shape = .empty
  · exact .inl ⟨hnode,
      htraced.grafts_of_empty htrace.program_eq hforwarded hforward.program_eq hnode⟩
  · obtain ⟨site, walk, hproposed, -⟩ := exists_site (distinguished_of_validate hvalid hstandard)
      htraced htrace.program_eq hforwarded hforward.program_eq hnode
    exact .inr ⟨hnode, site, hproposed.index.symm, hproposed.subtree.symm⟩

/-- **When a replacement grafts the proposed tree.**  It does so exactly if the picked part is
missing, or if the rule that the trace has at the picked index takes the proposed tree. -/
theorem grafts_iff {grammar : Grammar ℚ} (hvalid : grammar.validate = .ok ())
    (hstandard : grammar.vocabulary = .standard) {trace : Trace ℚ LogWeight Tree}
    (htrace : grammar.model.Obtained trace) {forward : Trace ℚ LogWeight Proposal}
    (hforward : (grammar.proposal trace.result).Obtained forward) (shown : String)
    (supply : Supply ℚ) :
    trace.Grafts forward shown supply ↔ forward.result.node.shape = .empty ∨
      ∃ rule, grammar.ruleBelow (fun address => trace.choices.at? (.text "tree" :: address)) 1
          grammar.root (route forward.result.index.toNat) = some rule ∧
        grammar.Hosts LogWeight (trace.found forward.choices.edits) forward.result.index rule
          forward.result.subtree := by
  rcases exists_site_of_obtained hvalid hstandard htrace hforward with
    ⟨hempty, hgrafts⟩ | ⟨hnode, site, hindex, hsubtree⟩
  · exact iff_of_true (hgrafts shown supply) (.inl hempty)
  have hrule := site.ruleBelow_eq
  rw [hindex] at hrule
  rw [site.grafts_iff_hosts hindex hsubtree, hrule]
  constructor
  · intro hhosts
    exact .inr ⟨_, rfl, hhosts⟩
  · rintro (hempty | ⟨rule, hsame, hhosts⟩)
    · exact (hnode hempty).elim
    · rwa [Option.some.inj hsame]

/-- In an even grammar, every replacement grafts. -/
theorem grafts_of_even {grammar : Grammar ℚ} (hvalid : grammar.validate = .ok ())
    (hstandard : grammar.vocabulary = .standard) (heven : grammar.Even)
    {trace : Trace ℚ LogWeight Tree} (htrace : grammar.model.Obtained trace)
    {forward : Trace ℚ LogWeight Proposal}
    (hforward : (grammar.proposal trace.result).Obtained forward) (shown : String)
    (supply : Supply ℚ) : trace.Grafts forward shown supply := by
  rcases exists_site_of_obtained hvalid hstandard htrace hforward with
    ⟨-, hgrafts⟩ | ⟨-, site, hindex, hsubtree⟩
  · exact hgrafts shown supply
  · rw [site.grafts_iff_hosts hindex hsubtree, ← hindex, ← hsubtree]
    exact site.hosts_of_even (ready_of_validate hvalid hstandard) heven

/-- An obligation below a norm has one part.  One with two parts is proposed for it, and cannot be
grafted. -/
theorem grafts_iff_uneven :
    ∃ (trace : Trace ℚ LogWeight Tree) (forward : Trace ℚ LogWeight Proposal),
      uneven.model.Obtained trace ∧ (uneven.proposal trace.result).Obtained forward ∧
      ∀ shown supply, ¬ trace.Grafts forward shown supply := by
  have hunit : UnitDraws ([0, 0, 0, 0] : List ℚ) := by decide +kernel
  have hunit' : UnitDraws ([1 / 2, 0, 0, 3 / 4, 0, 1 / 2, 0, 0] : List ℚ) := by decide +kernel
  have hruns : uneven.model.simulate.any ⟨[0, 0, 0, 0], []⟩
      (fun (trace : Trace ℚ LogWeight Tree) _ =>
        (uneven.proposal trace.result).simulate.any ⟨[1 / 2, 0, 0, 3 / 4, 0, 1 / 2, 0, 0], []⟩
          fun (forward : Trace ℚ LogWeight Proposal) _ =>
            !(trace.replace forward.choices "").any ⟨[], []⟩ fun _ _ => true) = true := by
    decide +kernel
  obtain ⟨trace, _, htrace, hruns⟩ := Act.exists_yields hruns
  obtain ⟨forward, _, hforward, hfails⟩ := Act.exists_yields hruns
  rw [Bool.not_eq_true'] at hfails
  have hobtained : uneven.model.Obtained trace := .simulate hunit htrace
  have hproposed : (uneven.proposal trace.result).Obtained forward := .simulate hunit' hforward
  have hnever : ¬ trace.Grafts forward "" ⟨[], []⟩ := by
    rintro ⟨moved, undo, weight, rest, hreplace, -⟩
    rw [Act.any, hreplace] at hfails
    cases hfails
  refine ⟨trace, forward, hobtained, hproposed, fun shown supply => ?_⟩
  rwa [grafts_iff validate_uneven rfl hobtained hproposed,
    ← grafts_iff validate_uneven rfl hobtained hproposed "" ⟨[], []⟩]

end Grammar

end Deontic
