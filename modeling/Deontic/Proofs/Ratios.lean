import Deontic.Proofs.Regrowing

/-! Log-ratios in closed form.  A graft changes the score of a trace by the old and the new
derivation of the part, and the proposals that lead forth and back are each a walk of probability
one over the size of a tree and a derivation.  Where the four derivations cancel, the ratio is that
of the sizes of both trees (`Site.Grafted.weighs_sizes`): at a leaf, whose size stays, and under the
root rule, where the derivations are the same in the model and in the proposal.  A branch cannot be
regrown from a leaf (`Site.Grafted.assesses_bot`), so that it is never replaced by one. -/

namespace Deontic

open Deontic.Tree Deontic.Grammar

/-! ### Steps that are decided -/

namespace Kernel

variable {α : Type} [BEq α] [Shown α]

theorem acceptance_zero : acceptance 0 = 1 := by
  rw [acceptance, LogWeight.mass_zero, NNRat.cast_one, min_self]

theorem acceptance_bot : acceptance ⊥ = 0 := by
  rw [acceptance, LogWeight.mass_bot, NNRat.cast_zero, min_eq_right zero_le_one]

/-- With a draw left to decide by, every step that makes the proposal ends so, whether it is checked
or not. -/
def Settles (kernel : Kernel ℚ LogWeight α) (trace : Trace ℚ LogWeight α)
    (forward : Trace ℚ LogWeight Proposal) (next : Trace ℚ LogWeight α) (accepted : Bool) : Prop :=
  ∀ (check : Bool) (supply middle : Supply ℚ), UnitDraws supply.draws →
    (kernel.propose trace.result).simulate.Yields supply forward middle → middle.draws ≠ [] →
      ∃ rest, (kernel.step check trace).Yields supply (next, accepted) rest

/-- What is weighed is settled if all draws decide alike. -/
theorem Weighs.settles {kernel : Kernel ℚ LogWeight α} {trace moved : Trace ℚ LogWeight α}
    {forward : Trace ℚ LogWeight Proposal} {undo : Choices} {ratio : LogWeight}
    (h : kernel.Weighs trace forward.choices forward.score moved undo ratio) {accepted : Bool}
    (halike : ∀ draw : ℚ, 0 ≤ draw → draw < 1 → decide (draw < acceptance ratio) = accepted) :
    kernel.Settles trace forward (if accepted then moved else trace) accepted := by
  intro check supply middle hdraws hforward hleft
  obtain ⟨weighing, records, hweigh, rfl, -, rfl⟩ := h check forward.result.written middle
  obtain ⟨draw, draws, hmiddle⟩ := List.exists_cons_of_ne_nil hleft
  have hunit := (Program.shortens_simulate _).unitDraws hforward hdraws
  rw [hmiddle] at hunit hweigh
  obtain ⟨hnonneg, hone⟩ := hunit draw List.mem_cons_self
  obtain ⟨rest, hend⟩ := exists_conclude trace hone (halike draw hnonneg hone) draws records
  rw [step_eq_weigh]
  exact ⟨rest, Act.yields_bind.mpr ⟨forward, _, hforward, Act.yields_bind.mpr ⟨_, _, hweigh, hend⟩⟩⟩

theorem Weighs.settles_zero {kernel : Kernel ℚ LogWeight α} {trace moved : Trace ℚ LogWeight α}
    {forward : Trace ℚ LogWeight Proposal} {undo : Choices}
    (h : kernel.Weighs trace forward.choices forward.score moved undo 0) :
    kernel.Settles trace forward moved true := by
  refine h.settles fun draw _ hone => decide_eq_true ?_
  rwa [acceptance_zero]

theorem Weighs.settles_bot {kernel : Kernel ℚ LogWeight α} {trace moved : Trace ℚ LogWeight α}
    {forward : Trace ℚ LogWeight Proposal} {undo : Choices}
    (h : kernel.Weighs trace forward.choices forward.score moved undo ⊥) :
    kernel.Settles trace forward trace false := by
  refine h.settles fun draw hnonneg _ => decide_eq_false ?_
  rw [acceptance_bot]
  exact not_lt.mpr hnonneg

end Kernel

/-! ### The rules of leaves and branches -/

namespace Grammar

/-- Parts of one size leave the size of a tree. -/
theorem Around.size_eq {P : Type} {grammar : Grammar P} {index : Int} {rule gap : String}
    {steps : List Side} {before after : Way P} {plug : Tree → Tree}
    (h : Around grammar index rule steps gap before after plug) {t u : Tree}
    (hsize : t.stored.size = u.stored.size) : (plug t).stored.size = (plug u).stored.size := by
  induction h with
  | here => exact hsize
  | single _ _ _ _ ih | left _ _ _ _ _ ih => exact congrArg (1 + · + _) ih
  | right _ _ _ _ _ ih => exact congrArg (1 + _ + ·) ih

variable {grammar : Grammar ℚ} {index : Int} {rule gap : String} {inner growth : Way ℚ}
  {node t : Tree}

/-- The choices of a branch begin with a word for branches. -/
theorem Grown.exists_branch_word {kind : BranchKind} (h : Grown grammar index rule inner node)
    (hshape : node.shape = .branch kind) :
    ∃ weights word rest, inner = wordVisit index weights word :: rest ∧
      grammar.vocabulary.Names word (.branch kind) := by
  cases h with
  | leaf _ _ _ hbuilt =>
    obtain ⟨_, rfl⟩ := Vocabulary.eq_of_buildLeaf hbuilt
    cases hshape
  | single _ _ _ hbuilt | pair _ _ _ _ hbuilt =>
    obtain ⟨_, hnames, rfl⟩ := Vocabulary.buildBranch_eq_ok.mp hbuilt
    cases hshape
    exact ⟨_, _, _, rfl, hnames⟩

/-- A leaf and what is regrown from it exchange their rules: each derives from the rule of the other
one, with the same choices of words between them and the same choices of texts. -/
theorem exists_leaf_growths (hvalid : grammar.validate = .ok ())
    (hstandard : grammar.vocabulary = .standard) {kind : LeafKind}
    (hinside : Grown grammar index gap inner node) (hgrown : Grown grammar index rule growth t)
    (hshape : node.shape = .leaf kind) (hrule : grammar.regrowthRule node = .ok rule)
    (hinner : ∀ visit ∈ inner, Scale.isImpossible ℚ (visit.density : LogWeight) = false)
    (hgrowth : ∀ visit ∈ growth, Scale.isImpossible ℚ (visit.density : LogWeight) = false) :
    t.shape = .leaf kind ∧ ∃ new back, Grown grammar index gap new t ∧
      Grown grammar index rule back node ∧
      (∀ visit ∈ new, Scale.isImpossible ℚ (visit.density : LogWeight) = false) ∧
      (∀ visit ∈ back, Scale.isImpossible ℚ (visit.density : LogWeight) = false) ∧
      new.probability * back.probability = inner.probability * growth.probability := by
  cases hinside with
  | single _ _ _ hbuilt | pair _ _ _ _ hbuilt =>
    obtain ⟨_, rfl, -⟩ := Vocabulary.eq_of_buildBranch hbuilt
    cases hshape
  | leaf hweights hparts htexts hbuilt =>
    obtain ⟨_, hnames, rfl⟩ := Vocabulary.buildLeaf_eq_ok.mp hbuilt
    cases hshape
    have halone {other : String} {parts : List String}
        (hother : grammar.parts? rule other = some parts) :=
      alone_of_regrowth hvalid hstandard hparts hnames rfl hrule hother
    cases hgrown with
    | single _ hparts' _ hbuilt' | pair _ hparts' _ _ hbuilt' =>
      obtain rfl := halone hparts'
      obtain ⟨_, hbranch, -⟩ := Vocabulary.buildBranch_eq_ok.mp hbuilt'
      cases hnames.unique hbranch
    | leaf hweights' hparts' htexts' hbuilt' =>
      obtain rfl := halone hparts'
      obtain rfl := Option.some.inj (htexts.symm.trans htexts')
      obtain ⟨_, hnames', rfl⟩ := Vocabulary.buildLeaf_eq_ok.mp hbuilt'
      obtain ⟨hword, htext⟩ := List.forall_mem_cons.mp hinner
      obtain ⟨hword', htext'⟩ := List.forall_mem_cons.mp hgrowth
      refine ⟨hnames'.unique hnames, _, _, .leaf hweights hparts htexts hbuilt',
        .leaf hweights' hparts' htexts hbuilt, List.forall_mem_cons.mpr ⟨hword, htext'⟩,
        List.forall_mem_cons.mpr ⟨hword', htext⟩, ?_⟩
      simp only [Way.probability, List.map_cons, List.map_nil, List.prod_cons, List.prod_nil]
      ring

end Grammar

/-! ### Grafts -/

/-- The surroundings of a graft cancel, and with the derivations nothing but the sizes is left. -/
theorem ratio_of_graft {before after inner growth new back size size' : ℚ} (hbefore : 0 < before)
    (hafter : 0 < after) (hinner : 0 < inner) (hgrowth : 0 < growth) (hsize : 0 < size)
    (hsize' : 0 < size') (hcancel : new * back = inner * growth) :
    before * (new * after) / (before * (inner * after)) / (1 / size * growth) *
      (1 / size' * back) = size / size' := by
  field_simp
  exact hcancel

namespace Site

variable {grammar : Grammar ℚ} {trace moved : Trace ℚ LogWeight Tree}
  {forward : Trace ℚ LogWeight Proposal} {walk new back : Way ℚ} {undo : Choices}

/-- A proposal that leads to a trace with the proposed tree in the place, and back. -/
structure Grafted (site : Site grammar trace forward.choices.edits) (walk new : Way ℚ)
    (moved : Trace ℚ LogWeight Tree) (undo : Choices) : Prop where
  proposed : site.Proposed forward walk
  drawable : ∀ visit ∈ walk, visit.Drawable
  grown : Grown grammar site.index site.gap new site.subtree
  along : moved.Along (Way.under (.text "tree") (site.before ++ (new ++ site.after)))
  result : moved.result = site.plug site.subtree
  exchange : Exchange trace moved forward.choices undo
  undone : ∀ path, undo.at? path =
    Way.value? (walk.under (.text "pick_node") ++ site.inner.under (.text "subtree")) path

variable {site : Site grammar trace forward.choices.edits}

/-- If the rule of the place derives the proposed tree, the replacement grafts it. -/
theorem Proposed.grafted (h : site.Proposed forward walk)
    (hdrawable : ∀ visit ∈ walk, visit.Drawable) (hstandard : grammar.vocabulary = .standard)
    (hproposal : forward.program = grammar.proposal trace.result)
    (hnew : Grown grammar site.index site.gap new site.subtree)
    (hpossible : ∀ visit ∈ new, Scale.isImpossible ℚ (visit.density : LogWeight) = false)
    {shown : String} {supply rest : Supply ℚ} {weight : LogWeight}
    (hmove : (trace.replace forward.choices shown).Yields supply (some moved, undo, weight) rest) :
    site.Grafted walk new moved undo := by
  have hlabelled := labelled_proposal (h.along.follows_program hproposal le_rfl)
  obtain ⟨moved', discard, hexchange, hdiscard, hvalues, halong, hresult⟩ :=
    site.exists_exchange hnew (site.atHand hstandard hnew hpossible) (h.along.proposed hlabelled)
  obtain ⟨rfl, htidied, hsame⟩ := hexchange.eq_of_replace hmove
  exact ⟨h, hdrawable, hnew, halong, hresult, (hexchange.symm.congr htidied hsame).symm,
    fun path => (hsame path).trans
      (at?_undoing_of_along h.along h.picked.single site.inside.within hdiscard hvalues path)⟩

namespace Grafted

theorem sound (h : site.Grafted walk new moved undo) : moved.result.Sound :=
  h.result ▸ (site.around.grown h.grown).sound

/-- The choices of the walk lead to the grafted tree. -/
theorem exists_again (h : site.Grafted walk new moved undo) :
    ∃ again, Picked false false moved.result 1 1 again
        ⟨site.subtree, site.index, forward.result.depth⟩ ∧
      (∀ visit ∈ again, visit.Drawable) ∧ again.entries = walk.entries :=
  site.exists_again h.proposed h.drawable h.grown h.result

theorem subtreeAt_eq (h : site.Grafted walk new moved undo) :
    moved.result.subtreeAt site.index = .ok site.subtree := by
  rw [h.result]
  exact subtreeAt_descend.mpr (site.around.follow site.subtree)

/-- If the derivations cancel, the sizes of both trees are left. -/
theorem ratio_eq (h : site.Grafted walk new moved undo) {backward : Trace ℚ LogWeight Proposal}
    {again : Way ℚ} {picked : Selection} (hagain : Picked false false moved.result 1 1 again picked)
    (hdrawn : ∀ visit ∈ again, visit.Drawable)
    (hbackward : backward.Along (again.under (.text "pick_node") ++ back.under (.text "subtree")))
    (hcancel : new.probability * back.probability =
      site.inner.probability * site.growth.probability) :
    moved.score - trace.score - forward.score + backward.score =
      Scale.logOf (trace.result.stored.size : ℚ) - Scale.logOf (moved.result.stored.size : ℚ) := by
  have hsize : (0 : ℚ) < trace.result.stored.size := by exact_mod_cast site.sound.size_pos
  have hsize' : (0 : ℚ) < moved.result.stored.size := by exact_mod_cast h.sound.size_pos
  have hpossible : ∀ visit ∈ site.before ++ (site.inner ++ site.after),
      Scale.isImpossible ℚ (visit.density : LogWeight) = false := fun _ => site.possible
  obtain ⟨hbefore, hrest⟩ := List.forall_mem_append.mp hpossible
  obtain ⟨hinner, hafter⟩ := List.forall_mem_append.mp hrest
  ext
  simp only [LogWeight.mass_add, LogWeight.mass_sub, NNRat.cast_mul, NNRat.cast_div]
  rw [h.along.mass_score, site.along.mass_score, h.proposed.along.mass_score, hbackward.mass_score,
    Scale.mass_logOf hsize.le, Scale.mass_logOf hsize'.le]
  simp only [Way.probability_under, Way.probability_append]
  rw [h.proposed.picked.probability_eq site.sound h.drawable, hagain.probability_eq h.sound hdrawn]
  exact ratio_of_graft (Way.probability_pos hbefore) (Way.probability_pos hafter)
    (Way.probability_pos hinner) (Way.probability_pos site.likely) hsize hsize' hcancel

/-- If the derivations cancel, a graft is weighed by the sizes of both trees. -/
theorem weighs_sizes (h : site.Grafted walk new moved undo)
    (hstandard : grammar.vocabulary = .standard)
    (hrule : grammar.regrowthRule site.subtree = .ok site.rule)
    (hback : Grown grammar site.index site.rule back site.node)
    (hpossible : ∀ visit ∈ back, Scale.isImpossible ℚ (visit.density : LogWeight) = false)
    (hcancel : new.probability * back.probability =
      site.inner.probability * site.growth.probability) :
    grammar.kernel.Weighs trace forward.choices forward.score moved undo
      (Scale.logOf (trace.result.stored.size : ℚ) -
        Scale.logOf (moved.result.stored.size : ℚ)) := by
  obtain ⟨again, hagain, hdrawn, hentries⟩ := h.exists_again
  obtain ⟨backward, hbackward, hprogram, -⟩ := hback.exists_proposed site.names hagain
    site.grown.shape_ne_empty hrule (hagain.possible hdrawn) hpossible
  have hreturn : back.entries = site.inner.entries :=
    (hback.entries_eq_marks hstandard 1).trans (site.inside.entries_eq_marks hstandard 1).symm
  have hassess : (grammar.proposal moved.result).Assesses undo.at? backward.score := by
    rw [funext h.undone, ← Way.value?_labelled_congr hentries hreturn,
      ← funext hbackward.at?_choices, ← hprogram]
    exact hbackward.assesses
  rw [← h.ratio_eq hagain hdrawn hbackward hcancel]
  exact h.exchange.weighs hassess h.exchange.returns.tidied (fun _ => rfl) forward.score

/-- The choices of a branch have the score of the impossible as those of a proposal for a leaf. -/
theorem assesses_bot (h : site.Grafted walk new moved undo) (hvalid : grammar.validate = .ok ())
    (hready : grammar.Ready) {kind : BranchKind} {kind' : LeafKind}
    (hnode : site.node.shape = .branch kind) (hsubtree : site.subtree.shape = .leaf kind') :
    (grammar.proposal moved.result).Assesses undo.at? (⊥ : LogWeight) := by
  obtain ⟨again, hagain, hdrawn, hentries⟩ := h.exists_again
  have hderives := site.grown.derives site.likely
  obtain ⟨regrown, hrule, hregrown⟩ := hready.exists_regrowth hderives
  obtain ⟨leaf, _, hoffers, hleaf, -⟩ := hderives.exists_leaf hsubtree
  obtain ⟨_, word, rest, hinner, hbranch⟩ := site.inside.exists_branch_word hnode
  have hvalue : site.inner.value? [key site.index "node_type"] = some (.text word) :=
    Way.value?_of_mem (site.inside.distinct site.names site.one_le_index)
      (hinner ▸ List.mem_cons_self)
  -- the rule of the leaf offers no word but that of the leaf
  obtain ⟨weights, hweights, himpossible | ⟨-, parts, hparts⟩⟩ :=
    hready.exists_parts_or_barred hregrown site.index word
  · rw [funext h.undone, ← Way.value?_labelled_congr hentries rfl]
    exact Begun.assesses site.names hagain site.grown.shape_ne_empty hrule (hagain.possible hdrawn)
      (.word hweights) nofun hvalue himpossible
  · obtain rfl := alone_of_regrowth hvalid hready.standard hoffers.1 hleaf hsubtree hrule hparts
    cases hleaf.unique hbranch

end Grafted

section Proposed

variable {shown : String} {supply rest : Supply ℚ} {weight : LogWeight}
  (h : site.Proposed forward walk) (hdrawable : ∀ visit ∈ walk, visit.Drawable)
  (hproposal : forward.program = grammar.proposal trace.result)
  (hmove : (trace.replace forward.choices shown).Yields supply (some moved, undo, weight) rest)
include h hdrawable hproposal hmove

/-- A leaf is regrown as a leaf of its kind, and the step is certain. -/
theorem Proposed.weighs_leaf (hvalid : grammar.validate = .ok ())
    (hstandard : grammar.vocabulary = .standard) {kind : LeafKind}
    (hnode : site.node.shape = .leaf kind) :
    grammar.kernel.Weighs trace forward.choices forward.score moved undo 0 ∧
      moved.result.subtreeAt site.index = .ok site.subtree ∧ site.subtree.shape = .leaf kind := by
  obtain ⟨hsubtree, new, back, hnew, hback, hpossible, hpossible', hcancel⟩ :=
    exists_leaf_growths hvalid hstandard site.inside site.grown hnode h.regrowth
      site.possible_inner site.likely
  have hgrafted := h.grafted hdrawable hstandard hproposal hnew hpossible hmove
  have hrule : grammar.regrowthRule site.subtree = .ok site.rule :=
    (regrowthRule_congr (hsubtree.trans hnode.symm)).trans h.regrowth
  have hweighs := hgrafted.weighs_sizes hstandard hrule hback hpossible' hcancel
  have hsize : moved.result.stored.size = trace.result.stored.size := by
    rw [hgrafted.result, site.result]
    apply site.around.size_eq
    rw [site.grown.sound.size_leaf hsubtree, site.inside.sound.size_leaf hnode]
  have hpos : (0 : ℚ) < moved.result.stored.size := by exact_mod_cast hgrafted.sound.size_pos
  rw [← hsize, LogWeight.sub_self (Scale.logOf_ne_bot.mpr hpos)] at hweighs
  exact ⟨hweighs, hgrafted.subtreeAt_eq, hsubtree⟩

/-- A branch under the root rule is regrown under the root rule. -/
theorem Proposed.grafted_root (hstandard : grammar.vocabulary = .standard)
    (hroot : site.gap = grammar.root) {kind : BranchKind} (hnode : site.node.shape = .branch kind) :
    site.rule = grammar.root ∧ site.Grafted walk site.growth moved undo := by
  have hrule : site.rule = grammar.root :=
    Except.ok.inj (h.regrowth.symm.trans (regrowthRule_branch hnode))
  have hnew : Grown grammar site.index site.gap site.growth site.subtree :=
    hroot ▸ hrule ▸ site.grown
  exact ⟨hrule, h.grafted hdrawable hstandard hproposal hnew site.likely hmove⟩

/-- A branch under the root rule and a branch for it are weighed by the sizes of both trees. -/
theorem Proposed.weighs_branch (hstandard : grammar.vocabulary = .standard)
    (hroot : site.gap = grammar.root) {kind kind' : BranchKind}
    (hnode : site.node.shape = .branch kind) (hsubtree : site.subtree.shape = .branch kind') :
    grammar.kernel.Weighs trace forward.choices forward.score moved undo
      (Scale.logOf (trace.result.stored.size : ℚ) -
        Scale.logOf (moved.result.stored.size : ℚ)) := by
  obtain ⟨hrule, hgrafted⟩ := h.grafted_root hdrawable hproposal hmove hstandard hroot hnode
  have hback : Grown grammar site.index site.rule site.inner site.node :=
    hrule ▸ hroot ▸ site.inside
  refine hgrafted.weighs_sizes hstandard ?_ hback site.possible_inner (mul_comm _ _)
  rw [hrule, regrowthRule_branch hsubtree]

/-- A branch under the root rule and a leaf for it: no proposal leads back. -/
theorem Proposed.weighs_bot (hvalid : grammar.validate = .ok ()) (hready : grammar.Ready)
    (hroot : site.gap = grammar.root) {kind : BranchKind} {kind' : LeafKind}
    (hnode : site.node.shape = .branch kind) (hsubtree : site.subtree.shape = .leaf kind') :
    grammar.kernel.Weighs trace forward.choices forward.score moved undo ⊥ ∧ undo.Tidied ∧
      (grammar.proposal moved.result).Assesses undo.at? (⊥ : LogWeight) := by
  obtain ⟨-, hgrafted⟩ := h.grafted_root hdrawable hproposal hmove hready.standard hroot hnode
  have hassess := hgrafted.assesses_bot hvalid hready hnode hsubtree
  have htidied := hgrafted.exchange.returns.tidied
  refine ⟨?_, htidied, hassess⟩
  have hweighs := hgrafted.exchange.weighs hassess htidied (fun _ => rfl) forward.score
  rwa [LogWeight.add_bot] at hweighs

end Proposed

end Site

/-! ### All proposals -/

namespace Shape

theorem exists_branch {shape : Shape} (h : shape.isTerminal = false) :
    ∃ kind, shape = .branch kind := by
  cases shape with
  | branch kind => exact ⟨kind, rfl⟩
  | leaf | empty => cases h

theorem exists_leaf {shape : Shape} (h : shape.isTerminal = true) (hne : shape ≠ .empty) :
    ∃ kind, shape = .leaf kind := by
  cases shape with
  | leaf kind => exact ⟨kind, rfl⟩
  | empty => exact (hne rfl).elim
  | branch => cases h

end Shape

namespace Grammar

variable {grammar : Grammar ℚ} {trace moved : Trace ℚ LogWeight Tree}
  {forward : Trace ℚ LogWeight Proposal} {shown : String} {supply rest : Supply ℚ} {undo : Choices}
  {weight : LogWeight}

/-- A missing part stays missing, and the step is certain. -/
theorem weighs_of_empty {way way' : Way ℚ} (htrace : trace.Along way)
    (hforward : forward.Along way') (hproposal : forward.program = grammar.proposal trace.result)
    (hnode : forward.result.node.shape = .empty)
    (hmove : (trace.replace forward.choices shown).Yields supply (some moved, undo, weight) rest) :
    grammar.kernel.Weighs trace forward.choices forward.score moved undo 0 ∧ moved = trace := by
  have hexchange := htrace.exchange_of_empty hforward hproposal hnode
  have hassess : (grammar.proposal trace.result).Assesses forward.choices.at? forward.score :=
    hproposal ▸ hforward.assesses
  obtain ⟨rfl, htidied, hsame⟩ := hexchange.eq_of_replace hmove
  have hweighs := hexchange.weighs hassess htidied hsame forward.score
  have hzero : moved.score - moved.score - forward.score + forward.score = 0 := by
    rw [LogWeight.sub_sub_add, LogWeight.sub_self
      (LogWeight.add_ne_bot htrace.score_ne_bot hforward.score_ne_bot)]
  exact ⟨hzero ▸ hweighs, rfl⟩

theorem subtreeAt_of_follows_proposal {root : Tree} {calls : Nat} {way : Way ℚ} {result : Proposal}
    (h : (grammar.proposal root calls).Follows way result) :
    root.subtreeAt result.index = .ok result.node := by
  obtain ⟨walk, picked, hpicked, hnode, hindex, -⟩ := exists_of_follows_proposal h
  obtain ⟨steps, hsteps, hfollow⟩ := hpicked.exists_descend
  rw [hindex, hsteps, hnode]
  exact subtreeAt_descend.mpr hfollow

/-- **Log-ratios in closed form.**  If a proposal picks a leaf or a missing part, the log-ratio of
its replacement is zero, every step that makes the proposal accepts it, and the node that stands in
the place is of the same variant.  If it picks a branch that was grown under the root rule and has a
branch for it, the log-ratio is that of the sizes of both trees.  If it has a leaf for it, the
choices that lead back have the score of the impossible, and no step accepts. -/
theorem ratio_closed (hvalid : grammar.validate = .ok ())
    (hstandard : grammar.vocabulary = .standard) (htrace : grammar.model.Obtained trace)
    (hforward : (grammar.proposal trace.result).Simulates forward)
    (hmove : (trace.replace forward.choices shown).Yields supply (some moved, undo, weight) rest) :
    (forward.result.node.shape.isTerminal = true →
      grammar.kernel.Weighs trace forward.choices forward.score moved undo 0 ∧
      grammar.kernel.Settles trace forward moved true ∧
      trace.result.subtreeAt forward.result.index = .ok forward.result.node ∧
      ∃ node, moved.result.subtreeAt forward.result.index = .ok node ∧
        node.shape = forward.result.node.shape) ∧
    (forward.result.node.shape.isTerminal = false →
      grammar.ruleBelow (fun address => trace.choices.at? (.text "tree" :: address)) 1 grammar.root
        (route forward.result.index.toNat) = some grammar.root →
      (forward.result.subtree.shape.isTerminal = false →
        grammar.kernel.Weighs trace forward.choices forward.score moved undo
          (Scale.logOf (trace.result.stored.size : ℚ) -
            Scale.logOf (moved.result.stored.size : ℚ))) ∧
      (forward.result.subtree.shape.isTerminal = true →
        (∀ supply : Supply ℚ, ∃ outcome records,
          ((grammar.proposal moved.result).assess undo).Yields supply ((⊥ : LogWeight), outcome)
            ⟨supply.draws, records⟩) ∧
        grammar.kernel.Weighs trace forward.choices forward.score moved undo ⊥ ∧
        grammar.kernel.Settles trace forward trace false)) := by
  have hready := ready_of_validate hvalid hstandard
  have hweighed := weighed_of_validate hvalid
  obtain ⟨_, halong⟩ := htrace.exists_along (fair_model hweighed) grammar.steady_model
  obtain ⟨hproposal, _, hforwarded, hdrawable⟩ := (Program.simulates_iff
    (fair_proposal hweighed trace.result) (grammar.steady_proposal trace.result)).mp hforward
  have hpicked := subtreeAt_of_follows_proposal (hforwarded.follows_program hproposal le_rfl)
  by_cases hempty : forward.result.node.shape = .empty
  · obtain ⟨hweighs, rfl⟩ := weighs_of_empty halong hforwarded hproposal hempty hmove
    refine ⟨fun _ => ⟨hweighs, hweighs.settles_zero, hpicked, _, hpicked, rfl⟩, fun hbranch => ?_⟩
    rw [hempty] at hbranch
    cases hbranch
  obtain ⟨site, walk, hproposed, rfl⟩ := exists_site (distinguished_of_validate hvalid hstandard)
    halong htrace.program_eq hforwarded hproposal hempty
  have hwalk : ∀ visit ∈ walk, visit.Drawable :=
    Way.drawable_under.mp (List.forall_mem_append.mp hdrawable).1
  rw [hproposed.index, hproposed.node] at hpicked
  rw [hproposed.index, hproposed.node, hproposed.subtree, site.ruleBelow_eq]
  refine ⟨fun hterminal => ?_, fun hnonterminal hroot => ?_⟩
  · obtain ⟨kind, hnode⟩ := Shape.exists_leaf hterminal site.inside.shape_ne_empty
    obtain ⟨hweighs, hnew, hsubtree⟩ :=
      hproposed.weighs_leaf hwalk hproposal hmove hvalid hstandard hnode
    exact ⟨hweighs, hweighs.settles_zero, hpicked, _, hnew, hsubtree.trans hnode.symm⟩
  · obtain ⟨kind, hnode⟩ := Shape.exists_branch hnonterminal
    have hgap := Option.some.inj hroot
    refine ⟨fun hbranch => ?_, fun hleaf => ?_⟩
    · obtain ⟨kind', hsubtree⟩ := Shape.exists_branch hbranch
      exact hproposed.weighs_branch hwalk hproposal hmove hstandard hgap hnode hsubtree
    · obtain ⟨kind', hsubtree⟩ := Shape.exists_leaf hleaf site.grown.shape_ne_empty
      obtain ⟨hweighs, htidied, hassess⟩ :=
        hproposed.weighs_bot hwalk hproposal hmove hvalid hready hgap hnode hsubtree
      exact ⟨fun supply => hassess undo supply (Choices.get?_flatten htidied), hweighs,
        hweighs.settles_bot⟩

/-- A grammar in which norms are grown under the root rule at every level. -/
def nested : Grammar ℚ where
  rules := .ofList [("NORMS", .ofList [("Norm", ["NORMS"]), ("Colour", [])]),
    ("COLOUR", .ofList [("Colour", [])])]
  wordWeights := .ofList [("NORMS", .ofList [("Norm", 1 / 2), ("Colour", 1 / 2)]),
    ("COLOUR", .ofList [("Colour", 1)])]
  textWeights := .ofList [("Colour", .ofList [("red", 1 / 3), ("blue", 2 / 3)])]
  root := "NORMS"
  vocabulary := .standard

theorem validate_nested : nested.validate = .ok () := validate_of_isOk (by decide +kernel)

/-- What a proposal from a simulated trace leads to, if it can be told to pass a test. -/
theorem exists_replaced (grammar : Grammar ℚ) {draws draws' : List ℚ} (hunit : UnitDraws draws)
    (hunit' : UnitDraws draws')
    (test : Trace ℚ LogWeight Tree → Trace ℚ LogWeight Proposal → Trace ℚ LogWeight Tree → Bool)
    (hruns : grammar.model.simulate.any ⟨draws, []⟩
      (fun (trace : Trace ℚ LogWeight Tree) _ =>
        (grammar.proposal trace.result).simulate.any ⟨draws', []⟩
          fun (forward : Trace ℚ LogWeight Proposal) rest =>
            (trace.replace forward.choices "").any rest fun replaced _ =>
              replaced.1.any fun moved => test trace forward moved) = true) :
    ∃ (trace moved : Trace ℚ LogWeight Tree) (forward : Trace ℚ LogWeight Proposal) (undo : Choices)
      (weight : LogWeight) (supply rest : Supply ℚ), grammar.model.Obtained trace ∧
      (grammar.proposal trace.result).Simulates forward ∧
      (trace.replace forward.choices "").Yields supply (some moved, undo, weight) rest ∧
      test trace forward moved = true := by
  obtain ⟨trace, _, htrace, hruns⟩ := Act.exists_yields hruns
  obtain ⟨forward, _, hforward, hruns⟩ := Act.exists_yields hruns
  obtain ⟨⟨moved?, undo, weight⟩, _, hmove, hall⟩ := Act.exists_yields hruns
  obtain ⟨moved, rfl, htest⟩ := (Option.any_eq_true _ _).mp hall
  exact ⟨trace, moved, forward, undo, weight, _, _, .simulate hunit htrace,
    ⟨_, _, hunit', hforward⟩, hmove, htest⟩

/-- In a norm for a norm, the colour is regrown for certain, the inner norm becomes one of five
nodes with the odds of five to seven, and never a colour. -/
theorem ratio_closed_nested :
    (∃ (trace moved : Trace ℚ LogWeight Tree) (forward : Trace ℚ LogWeight Proposal)
        (undo : Choices) (weight : LogWeight) (supply rest : Supply ℚ),
      nested.model.Obtained trace ∧ (nested.proposal trace.result).Simulates forward ∧
      (trace.replace forward.choices "").Yields supply (some moved, undo, weight) rest ∧
      nested.kernel.Weighs trace forward.choices forward.score moved undo 0 ∧
      nested.kernel.Settles trace forward moved true) ∧
    (∃ (trace moved : Trace ℚ LogWeight Tree) (forward : Trace ℚ LogWeight Proposal)
        (undo : Choices) (weight : LogWeight) (supply rest : Supply ℚ),
      nested.model.Obtained trace ∧ (nested.proposal trace.result).Simulates forward ∧
      (trace.replace forward.choices "").Yields supply (some moved, undo, weight) rest ∧
      nested.kernel.Weighs trace forward.choices forward.score moved undo
        (Scale.logOf (5 : ℚ) - Scale.logOf (7 : ℚ))) ∧
    ∃ (trace moved : Trace ℚ LogWeight Tree) (forward : Trace ℚ LogWeight Proposal)
        (undo : Choices) (weight : LogWeight) (supply rest : Supply ℚ),
      nested.model.Obtained trace ∧ (nested.proposal trace.result).Simulates forward ∧
      (trace.replace forward.choices "").Yields supply (some moved, undo, weight) rest ∧
      nested.kernel.Weighs trace forward.choices forward.score moved undo ⊥ ∧
      nested.kernel.Settles trace forward trace false := by
  have hunit : UnitDraws ([0, 0, 1 / 2, 0] : List ℚ) := by decide +kernel
  refine ⟨?_, ?_, ?_⟩
  · have hunit' : UnitDraws ([1 / 2, 0, 1 / 2, 0, 0, 0, 1 / 2] : List ℚ) := by decide +kernel
    obtain ⟨_, _, _, _, _, _, _, htrace, hforward, hmove, hterminal⟩ :=
      exists_replaced nested hunit hunit'
        (fun _ forward _ => forward.result.node.shape.isTerminal) (by decide +kernel)
    obtain ⟨hweighs, hsettles, -⟩ :=
      (ratio_closed validate_nested rfl htrace hforward hmove).1 hterminal
    exact ⟨_, _, _, _, _, _, _, htrace, hforward, hmove, hweighs, hsettles⟩
  · have hunit' : UnitDraws ([1 / 2, 0, 0, 0, 0, 1 / 2, 0] : List ℚ) := by decide +kernel
    obtain ⟨_, _, _, _, _, _, _, htrace, hforward, hmove, htest⟩ :=
      exists_replaced nested hunit hunit' (fun trace forward moved =>
        !forward.result.node.shape.isTerminal &&
          nested.ruleBelow (fun address => trace.choices.at? (.text "tree" :: address)) 1
            nested.root (route forward.result.index.toNat) == some nested.root &&
          !forward.result.subtree.shape.isTerminal && trace.result.stored.size == 5 &&
          moved.result.stored.size == 7) (by decide +kernel)
    simp only [Bool.and_eq_true, Bool.not_eq_true', beq_iff_eq] at htest
    obtain ⟨⟨⟨⟨hnode, hroot⟩, hsubtree⟩, hsize⟩, hsize'⟩ := htest
    have hweighs :=
      ((ratio_closed validate_nested rfl htrace hforward hmove).2 hnode hroot).1 hsubtree
    rw [hsize, hsize'] at hweighs
    exact ⟨_, _, _, _, _, _, _, htrace, hforward, hmove, hweighs⟩
  · have hunit' : UnitDraws ([1 / 2, 0, 0, 1 / 2, 0] : List ℚ) := by decide +kernel
    obtain ⟨_, _, _, _, _, _, _, htrace, hforward, hmove, htest⟩ :=
      exists_replaced nested hunit hunit' (fun trace forward _ =>
        !forward.result.node.shape.isTerminal &&
          nested.ruleBelow (fun address => trace.choices.at? (.text "tree" :: address)) 1
            nested.root (route forward.result.index.toNat) == some nested.root &&
          forward.result.subtree.shape.isTerminal) (by decide +kernel)
    simp only [Bool.and_eq_true, Bool.not_eq_true', beq_iff_eq] at htest
    obtain ⟨⟨hnode, hroot⟩, hsubtree⟩ := htest
    obtain ⟨-, hweighs, hsettles⟩ :=
      ((ratio_closed validate_nested rfl htrace hforward hmove).2 hnode hroot).2 hsubtree
    exact ⟨_, _, _, _, _, _, _, htrace, hforward, hmove, hweighs, hsettles⟩

end Grammar

end Deontic
