import Deontic.Proofs.Grafting

/-! The way back from a graft.  The proposal that undoes a graft walks to the same position, where
it regrows the earlier tree under the rule for the grafted one.  In an even grammar that rule takes
the earlier tree, or it comes to a value of weight zero before anything is missing, so that the
choices which lead back have a score (`Site.exists_assesses`).  A step therefore weighs every
simulated proposal or finds it impossible (`Ready.yields_weigh`). -/

namespace Deontic

open Deontic.Tree Deontic.Grammar

/-! ### The walk back -/

namespace Tree

theorem Picked.possible {leafOnly excludeRoot : Bool} {t : Tree} {index depth : Int} {walk : Way ℚ}
    {picked : Selection} (h : Picked leafOnly excludeRoot t index depth walk picked)
    (hdrawable : ∀ visit ∈ walk, visit.Drawable) :
    ∀ visit ∈ walk, Scale.isImpossible ℚ (visit.density : LogWeight) = false := by
  intro visit hvisit
  have hfair := (fair_select leafOnly excludeRoot t index depth).of_follows h.follows visit hvisit
  exact Scale.isImpossible_rat.mpr
    (Scale.logOf_ne_bot.mpr ((hdrawable visit hvisit).density_pos hfair))

/-- The choices of a walk lead in another tree to what it has at the same position. -/
theorem Picked.exists_again {t u node new : Tree} {walk : Way ℚ} {picked : Selection}
    {steps : List Side} (h : Picked false false t 1 1 walk picked)
    (hdrawable : ∀ visit ∈ walk, visit.Drawable) (ht : t.Sound) (hu : u.Sound)
    (hindex : picked.index = descend 1 steps) (hnode : t.follow? steps = some node)
    (hnew : u.follow? steps = some new) :
    ∃ again, Picked false false u 1 1 again ⟨new, picked.index, picked.depth⟩ ∧
      (∀ visit ∈ again, visit.Drawable) ∧ again.entries = walk.entries := by
  obtain ⟨way, hpicked, hdrawn, hentries, -⟩ := exists_picked ht hnode 1 1
  obtain ⟨again, hagain, hdrawable', hentries', -⟩ := exists_picked hu hnew 1 1
  obtain ⟨rfl, rfl⟩ := h.unique hpicked le_rfl hdrawable hdrawn hindex
  exact ⟨again, hagain, hdrawable', hentries'.trans hentries.symm⟩

end Tree

/-! ### The score of the way back -/

namespace Grammar

variable {grammar : Grammar ℚ}

section Picked

variable {root t : Tree} {walk growth inner : Way ℚ} {picked : Selection} {rule : String}
  (hnames : grammar.Distinguished) (hpicked : Picked false false root 1 1 walk picked)
  (hshape : picked.node.shape ≠ .empty) (hrule : grammar.regrowthRule picked.node = .ok rule)
  (hwalk : ∀ visit ∈ walk, Scale.isImpossible ℚ (visit.density : LogWeight) = false)
include hnames hpicked hshape hrule hwalk

/-- The choices of a walk and of a growth are those of a proposal. -/
theorem Grown.exists_proposed (hgrown : Grown grammar picked.index rule growth t)
    (hgrowth : ∀ visit ∈ growth, Scale.isImpossible ℚ (visit.density : LogWeight) = false) :
    ∃ forward : Trace ℚ LogWeight Proposal,
      forward.Along (walk.under (.text "pick_node") ++ growth.under (.text "subtree")) ∧
        forward.program = grammar.proposal root ∧
        forward.result = ⟨picked.node, picked.index, picked.depth, t⟩ := by
  have horderly := hgrown.orderly_proposed hpicked hnames
  have hfollows (calls : Nat) (hcalls : (walk.under (.text "pick_node") ++
      growth.under (.text "subtree")).length ≤ calls) :
      (grammar.proposal root calls).Follows
        (walk.under (.text "pick_node") ++ growth.under (.text "subtree"))
        ⟨picked.node, picked.index, picked.depth, t⟩ := by
    rw [List.length_append, Way.under, Way.under, List.length_map, List.length_map] at hcalls
    exact follows_proposal hpicked hshape hrule (hgrown.follows (Nat.le_of_add_left_le hcalls))
  exact Program.exists_along hfollows horderly.distinct horderly.exists_recorded
    (List.forall_mem_append.mpr ⟨List.forall_mem_map.mpr hwalk, List.forall_mem_map.mpr hgrowth⟩)

/-- The choices of a walk and of a growth have a score as those of a proposal. -/
theorem Grown.exists_assesses (hgrown : Grown grammar picked.index rule growth t)
    (hgrowth : ∀ visit ∈ growth, Scale.isImpossible ℚ (visit.density : LogWeight) = false) :
    ∃ score : LogWeight, (grammar.proposal root).Assesses
      (Way.value? (walk.under (.text "pick_node") ++ growth.under (.text "subtree"))) score := by
  obtain ⟨backward, hbackward, hprogram, -⟩ :=
    hgrown.exists_proposed hnames hpicked hshape hrule hwalk hgrowth
  rw [← hprogram, ← funext hbackward.at?_choices]
  exact ⟨backward.score, hbackward.assesses⟩

/-- Choices at which the growth of a proposal comes to a value of weight zero have the score of the
impossible. -/
theorem Begun.assesses {address : Path} {dist : Distribution ℚ} {value : Value}
    (hbegun : Begun grammar picked.index rule growth address dist)
    (hvalues : AtHand LogWeight inner.value? growth) (hvalue : inner.value? address = some value)
    (himpossible : Scale.isImpossible ℚ (dist.logDensity value : LogWeight) = true) :
    (grammar.proposal root).Assesses
      (Way.value? (walk.under (.text "pick_node") ++ inner.under (.text "subtree")))
      (⊥ : LogWeight) := by
  intro choices supply hchoices
  have horderly := hbegun.orderly_proposed hpicked hnames
  have hgiven : ∀ visit ∈ walk.under (.text "pick_node") ++ growth.under (.text "subtree"),
      (Setting.fixing choices).given visit.address = some visit.value ∧
        Scale.isImpossible ℚ (visit.density : LogWeight) = false := by
    refine List.forall_mem_append.mpr ⟨List.forall_mem_map.mpr fun visit hvisit => ⟨?_, ?_⟩,
      List.forall_mem_map.mpr fun visit hvisit => ⟨?_, (hvalues visit hvisit).2⟩⟩
    · rw [Setting.given_fixing, hchoices, Visit.address_under, Way.value?_text, if_pos rfl]
      exact Way.value?_of_mem (hpicked.distinct le_rfl) hvisit
    · exact hwalk visit hvisit
    · rw [Setting.given_fixing, hchoices, Visit.address_under, Way.value?_text, if_neg (by decide),
        if_pos rfl]
      exact hvalues.values visit hvisit
  have hlast : (Setting.fixing choices).given (.text "subtree" :: address) = some value := by
    rw [Setting.given_fixing, hchoices, Way.value?_text, if_neg (by decide), if_pos rfl, hvalue]
  have hcalls : growth.length < Program.calls (.fixing choices) supply.draws := by
    have hlength := Program.length_lt_calls horderly.distinct (List.forall_mem_append.mpr
      ⟨List.forall_mem_map.mpr fun visit hvisit => Option.isSome_of_eq_some (hgiven visit hvisit).1,
        List.forall_mem_singleton.mpr (Option.isSome_of_eq_some hlast)⟩) supply.draws
    rw [Way.addresses, List.length_append, List.length_map, List.length_append, Way.under,
      Way.under, List.length_map, List.length_map, List.length_singleton] at hlength
    omega
  obtain ⟨next, hreaches⟩ := hbegun.reaches hcalls
  obtain ⟨next', hproposal⟩ := reaches_proposal_choose hpicked hshape hrule hreaches
  obtain ⟨run, hexecute⟩ := Program.yields_of_reaches supply hproposal hgiven hlast himpossible
    horderly.distinct (horderly.keyed _ (List.mem_append_right _ List.mem_cons_self)).1
    horderly.left.exists_recorded
  exact ⟨none, run.records, Program.yields_assess_none hexecute⟩

/-- If the rule for a picked node takes a tree, the choices of the walk and of the tree have a score
as those of a proposal, be it that of the impossible. -/
theorem Hosts.exists_assesses {gap : String}
    (hhosts : grammar.Hosts LogWeight inner.value? picked.index rule t)
    (hinner : Grown grammar picked.index gap inner t) :
    ∃ score : LogWeight, (grammar.proposal root).Assesses
      (Way.value? (walk.under (.text "pick_node") ++ inner.under (.text "subtree"))) score := by
  cases hhosts with
  | derived hgrown hvalues =>
    have hentries := hinner.entries_eq hgrown (fun visit hvisit =>
      Way.value?_of_mem (hinner.distinct hnames hpicked.one_le_index) hvisit) hvalues.values
    rw [Way.value?_labelled_congr rfl hentries]
    exact hgrown.exists_assesses hnames hpicked hshape hrule hwalk
      fun visit hvisit => (hvalues visit hvisit).2
  | barred hbegun hvalues hvalue himpossible =>
    exact ⟨⊥, hbegun.assesses hnames hpicked hshape hrule hwalk hvalues hvalue himpossible⟩

end Picked

end Grammar

namespace Site

variable {grammar : Grammar ℚ} {trace moved : Trace ℚ LogWeight Tree} {edits discard : Choices}
  (site : Site grammar trace edits) {new : Way ℚ}

/-- A graft discards the choices of the tree that was there. -/
theorem at?_discard (hnew : Grown grammar site.index site.gap new site.subtree)
    (hvalues : AtHand LogWeight (trace.found edits) new)
    (hmoved : moved.Along (Way.under (.text "tree") (site.before ++ (new ++ site.after))))
    (hrevision : trace.Revision edits moved discard []) (path : Path) :
    discard.at? path = Way.value? (site.inner.under (.text "tree")) path := by
  have hentries := site.grown.entries_eq hnew site.found_growth hvalues.values
  rw [hrevision.discards, Choices.get?_flatten site.tidied, site.edited,
    Way.value?_under_congr hentries, site.along.at?_choices, hmoved.at?_choices]
  simp only [Way.under_append, Way.value?_append]
  by_cases hpath : Outside site.index path
  · -- what both trees have there is kept
    rw [hnew.value?_outside hpath, site.inside.value?_outside hpath, Option.none_or]
    cases ((site.before.under (.text "tree")).value? path).or
      ((site.after.under (.text "tree")).value? path) <;> rfl
  · -- the edits give all that the new tree has there
    have hside := site.around.value?_inside le_rfl hpath
    rw [Way.under_append, Way.value?_append, Option.or_eq_none_iff] at hside
    rw [hside.1, hside.2, Option.none_or, Option.or_none, Option.none_or, Option.or_none]
    cases (new.under (.text "tree")).value? path <;> rfl

/-- A graft exchanges the tree that was there for the proposed one. -/
theorem exists_exchange {forth : Choices} (site : Site grammar trace forth.edits)
    (hnew : Grown grammar site.index site.gap new site.subtree)
    (hvalues : AtHand LogWeight (trace.found forth.edits) new) (hforth : forth.Proposed) :
    ∃ moved discard, Exchange trace moved forth (forth.undoing discard) ∧ discard.Tidied ∧
      (∀ path, discard.at? path = Way.value? (site.inner.under (.text "tree")) path) ∧
      moved.Along (Way.under (.text "tree") (site.before ++ (new ++ site.after))) ∧
      moved.result = site.plug site.subtree := by
  obtain ⟨moved, weight, discard, _, hupdate, hmoved, -, hresult⟩ :=
    site.exists_update hnew hvalues ⟨[], []⟩
  obtain ⟨_, _, hrevision, -⟩ :=
    site.along.exists_undrawn_revision (site.program ▸ grammar.steady_model) hupdate rfl
  have hlabelled := labelled_model (site.along.follows_program site.program le_rfl)
  exact ⟨moved, discard, site.along.exchange hlabelled hmoved hforth hrevision, hrevision.tidied,
    site.at?_discard hnew hvalues hmoved hrevision, hmoved, hresult⟩

/-- The choices of the walk to a place lead to the tree that is grafted there. -/
theorem exists_again {forward : Trace ℚ LogWeight Proposal} {walk : Way ℚ}
    (h : site.Proposed forward walk) (hdrawable : ∀ visit ∈ walk, visit.Drawable)
    (hnew : Grown grammar site.index site.gap new site.subtree)
    (hresult : moved.result = site.plug site.subtree) :
    ∃ again, Picked false false moved.result 1 1 again
        ⟨site.subtree, site.index, forward.result.depth⟩ ∧
      (∀ visit ∈ again, visit.Drawable) ∧ again.entries = walk.entries := by
  have hafter : moved.result.Sound := hresult ▸ (site.around.grown hnew).sound
  have hnode : trace.result.follow? site.steps = some site.node :=
    site.result ▸ site.around.follow site.node
  have hgrafted : moved.result.follow? site.steps = some site.subtree :=
    hresult ▸ site.around.follow site.subtree
  exact h.picked.exists_again hdrawable site.sound hafter rfl hnode hgrafted

/-- In an even grammar, the choices that lead back from a graft have a score. -/
theorem exists_assesses {forward : Trace ℚ LogWeight Proposal} {walk : Way ℚ}
    (hproposed : site.Proposed forward walk) (hdrawable : ∀ visit ∈ walk, visit.Drawable)
    (hnew : Grown grammar site.index site.gap new site.subtree) (h : grammar.Ready)
    (heven : grammar.Even) (hresult : moved.result = site.plug site.subtree) :
    ∃ score : LogWeight, (grammar.proposal moved.result).Assesses
      (Way.value? (walk.under (.text "pick_node") ++ site.inner.under (.text "subtree")))
        score := by
  obtain ⟨again, hagain, hdrawn, hentries⟩ := site.exists_again hproposed hdrawable hnew hresult
  obtain ⟨regrown, hrule, hregrown⟩ := h.exists_regrowth (site.grown.derives site.likely)
  have hinside : AtHand LogWeight site.inner.value? site.inner := fun visit hvisit =>
    ⟨Way.value?_of_mem (site.inside.distinct site.names site.one_le_index) hvisit,
      site.possible_inner visit hvisit⟩
  have hhosts := site.inside.hosts h heven hinside hregrown
  rw [← Way.value?_labelled_congr hentries rfl]
  exact hhosts.exists_assesses site.names hagain site.grown.shape_ne_empty hrule
    (hagain.possible hdrawn) site.inside

end Site

/-! ### Weighing every proposal -/

namespace Grammar

variable {grammar : Grammar ℚ} {trace : Trace ℚ LogWeight Tree}
  {forward : Trace ℚ LogWeight Proposal}

/-- The choices that lead back are those of the walk and of the tree that was there. -/
theorem at?_undoing_of_along {walk growth inner : Way ℚ} {index : Int}
    (h : forward.Along (walk.under (.text "pick_node") ++ growth.under (.text "subtree")))
    (hwalk : ∀ visit ∈ walk, ∃ key, visit.address = [key]) (hinner : Within index inner.addresses)
    {discard : Choices} (hdiscard : discard.Tidied)
    (hvalues : ∀ path, discard.at? path = Way.value? (inner.under (.text "tree")) path)
    (path : Path) :
    (forward.choices.undoing discard).at? path =
      Way.value? (walk.under (.text "pick_node") ++ inner.under (.text "subtree")) path := by
  have hpick : forward.choices.rekeyed "pick_node" "pick_node" path =
      Way.value? (walk.under (.text "pick_node")) path := by
    refine Choices.rekeyed_eq_value? (fun visit hvisit => ?_) (fun next rest => ?_) path
    · obtain ⟨key, haddress⟩ := hwalk visit hvisit
      rw [haddress]
      exact List.cons_ne_nil _ _
    · rw [h.at?_choices, Way.value?_text, if_pos rfl]
  have hsubtree : discard.rekeyed "tree" "subtree" path =
      Way.value? (inner.under (.text "subtree")) path := by
    refine Choices.rekeyed_eq_value? hinner.address_ne_nil (fun next rest => ?_) path
    rw [hvalues, Way.value?_under, BEq.rfl, if_pos rfl]
  rw [Choices.at?_undoing h.tidied hdiscard, hsubtree, hpick, Way.value?_labelled]

/-- In an even grammar, a step weighs every simulated proposal, or finds that it leads to what is
impossible. -/
theorem Ready.yields_weigh (h : grammar.Ready) (heven : grammar.Even)
    (hnames : grammar.Distinguished) {way way' : Way ℚ} (htrace : trace.Along way)
    (hmodel : trace.program = grammar.model) (hforward : forward.Along way')
    (hdrawable : ∀ visit ∈ way', visit.Drawable)
    (hproposal : forward.program = grammar.proposal trace.result) (check : Bool) (shown : String)
    (supply : Supply ℚ) :
    ∃ weighed records, (grammar.kernel.weigh check trace forward.choices forward.score shown).Yields
      supply weighed ⟨supply.draws, records⟩ := by
  by_cases hnode : forward.result.node.shape = .empty
  · have hassess : (grammar.proposal trace.result).Assesses forward.choices.at? forward.score :=
      hproposal ▸ hforward.assesses
    obtain ⟨_, records, hweigh, -⟩ :=
      (htrace.exchange_of_empty hforward hproposal hnode).yields_weigh hassess forward.score check
        shown supply
    exact ⟨_, records, hweigh⟩
  obtain ⟨site, walk, hproposed, rfl⟩ := exists_site hnames htrace hmodel hforward hproposal hnode
  cases site.hosts_of_even h heven with
  | barred hbegun hvalues hvalue himpossible =>
    obtain ⟨discard, records, hupdate⟩ := site.yields_none hbegun hvalues hvalue himpossible supply
    exact ⟨none, _, Kernel.yields_weigh_none
      (Trace.yields_replace.mpr ⟨discard, _, hupdate, rfl, rfl⟩)⟩
  | derived hnew hvalues =>
    have hlabelled := labelled_proposal (hforward.follows_program hproposal le_rfl)
    obtain ⟨moved, discard, hexchange, htidied, hdiscard, -, hresult⟩ :=
      site.exists_exchange hnew hvalues (hforward.proposed hlabelled)
    have hwalk : ∀ visit ∈ walk, visit.Drawable :=
      Way.drawable_under.mp (List.forall_mem_append.mp hdrawable).1
    obtain ⟨score, hassess⟩ := site.exists_assesses hproposed hwalk hnew h heven hresult
    rw [← funext (at?_undoing_of_along hforward hproposed.picked.single site.inside.within htidied
      hdiscard)] at hassess
    obtain ⟨_, records, hweigh, -⟩ :=
      hexchange.yields_weigh hassess forward.score check shown supply
    exact ⟨_, records, hweigh⟩

end Grammar

end Deontic
