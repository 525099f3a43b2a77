import Deontic.Proofs.Acceptance
import Deontic.Proofs.Support

/-! Trees regrown as a whole.  Picking the root regrows a branch under the root rule and a leaf
under the rule of its word, which offers that word alone (`alone_of_regrowth`).  So trees that are
`Alike`, two branches or two leaves of one kind, are regrown under one rule that derives them both,
and one step that can be accepted leads from each to the other (`Ready.moves_of_alike`). -/

namespace Deontic

/-- Two branches, or two leaves of one kind. -/
def Shape.Alike (first second : Shape) : Prop :=
  (∃ kind kind', first = .branch kind ∧ second = .branch kind') ∨
    ∃ kind, first = .leaf kind ∧ second = .leaf kind

namespace Shape.Alike

theorem refl {shape : Shape} (h : shape ≠ .empty) : Alike shape shape := by
  cases shape with
  | leaf kind => exact .inr ⟨kind, rfl, rfl⟩
  | branch kind => exact .inl ⟨kind, kind, rfl, rfl⟩
  | empty => exact (h rfl).elim

theorem trans {first second third : Shape} (h : Alike first second) (k : Alike second third) :
    Alike first third := by
  rcases h with ⟨kind, kind', rfl, rfl⟩ | ⟨kind, rfl, rfl⟩
  · rcases k with ⟨_, kind'', _, rfl⟩ | ⟨_, hleaf, -⟩
    · exact .inl ⟨kind, kind'', rfl, rfl⟩
    · cases hleaf
  · exact k

/-- Shapes are alike if neither is a leaf of a kind without the other. -/
theorem of_leaf_iff {first second : Shape} (hfirst : first ≠ .empty) (hsecond : second ≠ .empty)
    (h : ∀ kind, first = .leaf kind ↔ second = .leaf kind) : Alike first second := by
  cases first with
  | empty => exact (hfirst rfl).elim
  | leaf kind => exact .inr ⟨kind, rfl, (h kind).mp rfl⟩
  | branch kind =>
    cases second with
    | empty => exact (hsecond rfl).elim
    | leaf kind' => cases (h kind').mpr rfl
    | branch kind' => exact .inl ⟨kind, kind', rfl, rfl⟩

end Shape.Alike

/-- The standard words stand for different variants. -/
theorem Vocabulary.Names.word_unique {word word' : String} {shape : Shape} {t : Tree}
    (h : standard.Names word shape) (h' : standard.Names word' shape) (ht : t.shape = shape) :
    word = word' := by
  obtain ⟨found, hfound, rfl⟩ := wordOf_of_names h ht
  obtain ⟨found', hfound', rfl⟩ := wordOf_of_names h' ht
  rw [Except.ok.inj (hfound.symm.trans hfound')]

namespace Grammar

variable {grammar : Grammar ℚ}

/-- The rule under which a node is regrown depends on its variant alone. -/
theorem regrowthRule_congr {t u : Tree} (h : t.shape = u.shape) :
    grammar.regrowthRule t = grammar.regrowthRule u := by
  rw [regrowthRule, regrowthRule, Vocabulary.regrowthRule, Vocabulary.regrowthRule,
    Vocabulary.wordOf, Vocabulary.wordOf, h]

theorem regrowthRule_branch {t : Tree} {kind : BranchKind} (h : t.shape = .branch kind) :
    grammar.regrowthRule t = .ok grammar.root := by
  rw [regrowthRule, h]
  rfl

/-! ### Rules for leaves -/

section Leaves

variable {rule regrown word : String} {kind : LeafKind} {t : Tree}

/-- The rule under which a leaf is regrown offers its word, and no other. -/
theorem alone_of_regrowth (hvalid : grammar.validate = .ok ())
    (hstandard : grammar.vocabulary = .standard) (hparts : grammar.parts? rule word = some [])
    (hnames : grammar.vocabulary.Names word (.leaf kind)) (hshape : t.shape = .leaf kind)
    (hrule : grammar.regrowthRule t = .ok regrown) {other : String} {parts : List String}
    (hother : grammar.parts? regrown other = some parts) : other = word := by
  obtain ⟨hrules, -, -⟩ := checked_of_validate hvalid
  obtain ⟨offered, hoffered, hword⟩ := Option.bind_eq_some_iff.mp hparts
  obtain ⟨_, -, -, -, hoffers⟩ := checked_of_checkRule (hrules _ (Table.mem_of_get?_eq hoffered))
  obtain ⟨found, hfound, -, -, hleaf⟩ :=
    checked_of_checkOffer (hoffers _ (Table.mem_of_get?_eq hword))
  obtain ⟨-, -, regrown', alone, hregrowth, halone, hsame⟩ := exists_regrowth_of_checkLeaf hleaf
  -- the rule that the check has looked at is the one that regrows the leaf
  have hregrown : regrown' = regrown := by
    obtain ⟨found', hfound', hshape'⟩ := hnames
    obtain rfl := Except.ok.inj (hfound.symm.trans hfound')
    rw [hstandard] at hfound
    obtain ⟨hwordOf, -⟩ := Vocabulary.wordOf_of_lookup hfound (hshape.trans hshape'.symm)
    have hterminal : t.shape.isTerminal = true := by rw [hshape]; rfl
    rw [regrowthRule, if_pos hterminal, hstandard, Vocabulary.regrowthRule, hwordOf] at hrule
    obtain ⟨_, _, _⟩ := found
    cases hregrowth
    exact Except.ok.inj hrule
  obtain ⟨alone', halone', hfoundOther⟩ := Option.bind_eq_some_iff.mp hother
  rw [← hregrown] at halone'
  obtain rfl := Option.some.inj (halone.symm.trans halone')
  have hmem := List.all_eq_true.mp (Bool.and_eq_true_iff.mp hsame).1 other
    (Table.mem_keys_of_get? hfoundOther)
  exact List.mem_singleton.mp (List.contains_iff_mem.mp hmem)

/-- A rule that offers nothing but a word for leaves gives it a positive weight. -/
theorem Ready.offers_of_alone (h : grammar.Ready) (hrule : grammar.rules.contains regrown = true)
    (hnames : grammar.vocabulary.Names word (.leaf kind))
    (halone : ∀ other parts, grammar.parts? regrown other = some parts → other = word) :
    grammar.Offers regrown word [] := by
  obtain ⟨weights, hweights, -, hsum⟩ := h.weights hrule
  obtain ⟨_, hmem, hpos⟩ := Distribution.exists_pos_of_sum_pos hsum
  obtain ⟨_, hlabel, rfl⟩ := List.mem_map.mp hmem
  obtain ⟨⟨other, p⟩, hentry, rfl⟩ := List.mem_map.mp hlabel
  obtain ⟨parts, hparts⟩ := h.parts hweights (Table.mem_keys.mpr ⟨p, hentry⟩)
  obtain rfl := halone other parts hparts
  have hfits := h.fits hparts
  cases hfits with
  | leaf => exact ⟨hparts, weights, p, hweights, Table.get?_of_mem hentry, hpos⟩
  | single hbranch | pair hbranch => cases hnames.unique hbranch

/-- A leaf that derives from a rule tells its word and its text. -/
theorem Derives.exists_leaf (h : grammar.Derives rule t) (hshape : t.shape = .leaf kind) :
    ∃ word text, grammar.Offers rule word [] ∧ grammar.vocabulary.Names word (.leaf kind) ∧
      grammar.Spells word text ∧ t = .ofLeaf kind text := by
  cases h with
  | @leaf _ word text kind' hoffers hnames htext =>
    obtain rfl : kind' = kind := by cases hshape; rfl
    exact ⟨word, text, hoffers, hnames, htext, rfl⟩
  | single | pair => cases hshape

/-- Trees of the grammar that are alike are regrown under one rule, which derives them both. -/
theorem Ready.exists_regrowth_of_alike (h : grammar.Ready) (hvalid : grammar.validate = .ok ())
    {u : Tree} (ht : grammar.Derives grammar.root t) (hu : grammar.Derives grammar.root u)
    (halike : t.shape.Alike u.shape) :
    ∃ rule, grammar.regrowthRule t = .ok rule ∧ grammar.regrowthRule u = .ok rule ∧
      grammar.Derives rule t ∧ grammar.Derives rule u := by
  rcases halike with ⟨kind, kind', hshape, hshape'⟩ | ⟨kind, hshape, hshape'⟩
  · exact ⟨grammar.root, regrowthRule_branch hshape, regrowthRule_branch hshape', ht, hu⟩
  · obtain ⟨regrown, hregrowth, hregrown⟩ := h.exists_regrowth ht
    obtain ⟨word, text, hoffers, hnames, htext, rfl⟩ := ht.exists_leaf hshape
    obtain ⟨word', text', -, hnames', htext', rfl⟩ := hu.exists_leaf hshape'
    obtain rfl : word = word' := by
      rw [h.standard] at hnames hnames'
      exact hnames.word_unique hnames' hshape
    have halone := h.offers_of_alone hregrown hnames fun other parts hother =>
      alone_of_regrowth hvalid h.standard hoffers.1 hnames rfl hregrowth hother
    exact ⟨regrown, hregrowth, hregrowth, .leaf halone hnames htext, .leaf halone hnames htext'⟩

end Leaves

end Grammar

/-! ### Regrowing the whole tree -/

open Deontic.Tree Deontic.Grammar

/-- A trace of the model as a site at the root. -/
def Site.whole {grammar : Grammar ℚ} {trace : Trace ℚ LogWeight Tree} {whole growth : Way ℚ}
    {rule : String} {t : Tree} {edits : Choices}
    (hnames : grammar.Distinguished) (htrace : trace.Along (Way.under (.text "tree") whole))
    (hmodel : trace.program = grammar.model)
    (hwhole : Grown grammar 1 grammar.root whole trace.result)
    (hgrown : Grown grammar 1 rule growth t)
    (hlikely : ∀ visit ∈ growth, Scale.isImpossible ℚ (visit.density : LogWeight) = false)
    (hedits : edits.Tidied)
    (hedited : ∀ path, edits.at? path = Way.value? (growth.under (.text "tree")) path) :
    Site grammar trace edits where
  steps := []
  gap := grammar.root
  before := []
  inner := whole
  after := []
  plug := id
  node := trace.result
  around := .here 1 grammar.root
  inside := hwhole
  along := by
    rw [List.append_nil]
    exact htrace
  program := hmodel
  result := rfl
  rule := rule
  growth := growth
  subtree := t
  grown := hgrown
  likely := hlikely
  tidied := hedits
  edited := hedited
  names := hnames

/-- What is grafted has its choices at hand under every rule that derives it. -/
theorem Site.atHand {grammar : Grammar ℚ} {trace : Trace ℚ LogWeight Tree} {edits : Choices}
    (site : Site grammar trace edits) (hstandard : grammar.vocabulary = .standard) {rule : String}
    {new : Way ℚ} (hnew : Grown grammar site.index rule new site.subtree)
    (hpossible : ∀ visit ∈ new, Scale.isImpossible ℚ (visit.density : LogWeight) = false) :
    AtHand LogWeight (trace.found edits) new := by
  have hentries : new.entries = site.growth.entries :=
    (hnew.entries_eq_marks hstandard 1).trans (site.grown.entries_eq_marks hstandard 1).symm
  intro visit hvisit
  refine ⟨?_, hpossible visit hvisit⟩
  have hentry : visit.entry ∈ site.growth.entries := hentries ▸ List.mem_map_of_mem hvisit
  obtain ⟨grown, hgrown, hsame⟩ := List.mem_map.mp hentry
  obtain ⟨haddress, hvalue⟩ := Prod.mk.inj hsame
  rw [← haddress, ← hvalue]
  exact site.found_growth grown hgrown

namespace Grammar

variable {grammar : Grammar ℚ} {trace other : Trace ℚ LogWeight Tree}

/-- A proposal that can be drawn, picks the root and regrows it under a rule. -/
structure Regrows (grammar : Grammar ℚ) (root t : Tree) (rule : String)
    (forward : Trace ℚ LogWeight Proposal) (walk growth : Way ℚ) : Prop where
  picked : Picked false false root 1 1 walk ⟨root, 1, 1⟩
  entries : walk.entries = [stopEntry 1 true]
  grown : Grown grammar 1 rule growth t
  likely : ∀ visit ∈ growth, Scale.isImpossible ℚ (visit.density : LogWeight) = false
  along : forward.Along (walk.under (.text "pick_node") ++ growth.under (.text "subtree"))
  drawable : ∀ visit ∈ walk.under (.text "pick_node") ++ growth.under (.text "subtree"),
    visit.Drawable
  program : forward.program = grammar.proposal root

theorem Ready.exists_regrows (h : grammar.Ready) (hnames : grammar.Distinguished) {root t : Tree}
    {rule : String} (hroot : grammar.Derives rule root)
    (hrule : grammar.regrowthRule root = .ok rule) (ht : grammar.Derives rule t) :
    ∃ forward walk growth, Regrows grammar root t rule forward walk growth := by
  obtain ⟨walk, hpicked, hdrawable, hentries, -⟩ := exists_picked hroot.sound (follow?_nil root) 1 1
  obtain ⟨growth, hgrown, hlikely⟩ := ht.exists_grown 1
  obtain ⟨_, hrootGrown, -⟩ := hroot.exists_grown 1
  obtain ⟨forward, hforward, hprogram, -⟩ := hgrown.exists_proposed hnames hpicked
    hrootGrown.shape_ne_empty hrule (hpicked.possible hdrawable) hlikely
  refine ⟨forward, walk, growth, hpicked, hentries, hgrown, hlikely, hforward, ?_, hprogram⟩
  exact List.forall_mem_append.mpr ⟨Way.drawable_under.mpr hdrawable,
    Way.drawable_under.mpr (h.drawable hgrown hlikely)⟩

theorem Regrows.labelled {root t : Tree} {rule : String} {forward : Trace ℚ LogWeight Proposal}
    {walk growth : Way ℚ} (h : Regrows grammar root t rule forward walk growth) :
    (walk.under (.text "pick_node") ++ growth.under (.text "subtree")).Labelled
      ["pick_node", "subtree"] :=
  labelled_proposal (h.along.follows_program h.program le_rfl)

/-- Two traces whose trees are regrown under one rule are moved to each other by opposed
proposals. -/
theorem Regrows.opposed (hstandard : grammar.vocabulary = .standard)
    (hnames : grammar.Distinguished)
    {way way' walk walk' growth growth' : Way ℚ} {rule : String}
    {forward backward : Trace ℚ LogWeight Proposal} (htrace : trace.Along way)
    (hmodel : trace.program = grammar.model) (hother : other.Along way')
    (hmodel' : other.program = grammar.model)
    (hforth : Regrows grammar trace.result other.result rule forward walk growth)
    (hback : Regrows grammar other.result trace.result rule backward walk' growth') :
    Opposed trace other forward backward := by
  obtain ⟨whole, rfl, hwhole, -⟩ := exists_grown_of_model htrace hmodel
  obtain ⟨whole', rfl, hwhole', hpossible'⟩ := exists_grown_of_model hother hmodel'
  let site : Site grammar trace forward.choices.edits := Site.whole hnames htrace hmodel hwhole
    hforth.grown hforth.likely hforth.along.tidied.edits
    (at?_edits_of_along hforth.along hforth.grown.within)
  have hvalues := site.atHand hstandard hwhole' hpossible'
  obtain ⟨moved, discard, hexchange, htidied, hdiscard, hmoved, hresult⟩ :=
    site.exists_exchange hwhole' hvalues (hforth.along.proposed hforth.labelled)
  obtain rfl : moved = other := eq_of_model hstandard hnames hmoved hother
    (hexchange.revision.program.trans hmodel) hmodel' hresult
  -- the choices that undo the move are those of the proposal that leads back
  have hundo (path : Path) :
      backward.choices.at? path = (forward.choices.undoing discard).at? path := by
    have hentries : growth'.entries = whole.entries :=
      (hback.grown.entries_eq_marks hstandard 1).trans (hwhole.entries_eq_marks hstandard 1).symm
    rw [at?_undoing_of_along hforth.along hforth.picked.single hwhole.within htidied hdiscard,
      hback.along.at?_choices,
      Way.value?_labelled_congr (hback.entries.trans hforth.entries.symm) hentries]
  have hexchange := (hexchange.symm.congr hback.along.tidied hundo).symm
  exact ⟨hexchange.before, hexchange.after, ⟨_, hforth.along, hforth.labelled⟩,
    ⟨_, hback.along, hback.labelled⟩, hexchange.revision, hexchange.picks⟩

/-- One step leads from a tree of the model to every other one that is alike. -/
theorem Ready.moves_of_alike (h : grammar.Ready) (hvalid : grammar.validate = .ok ())
    (hnames : grammar.Distinguished) {way way' : Way ℚ} (htrace : trace.Along way)
    (hmodel : trace.program = grammar.model) (hother : other.Along way')
    (hmodel' : other.program = grammar.model)
    (halike : trace.result.shape.Alike other.result.shape) (check : Bool) :
    grammar.kernel.Moves check trace other := by
  obtain ⟨rule, hrule, hrule', ht, hu⟩ := h.exists_regrowth_of_alike hvalid
    (derives_of_model htrace hmodel) (derives_of_model hother hmodel') halike
  obtain ⟨forward, _, _, hforth⟩ := h.exists_regrows hnames ht hrule hu
  obtain ⟨backward, _, _, hback⟩ := h.exists_regrows hnames hu hrule' ht
  have hopposed := hforth.opposed h.standard hnames htrace hmodel hother hmodel' hback
  have hweighs := hopposed.weighs hback.program hforth.along.tidied (fun _ => rfl)
    hback.along.tidied (fun _ => rfl) forward.score
  have hchange := LogWeight.sub_ne_bot hother.score_ne_bot htrace.score_ne_bot
  exact hweighs.moves hforth.along hforth.drawable hforth.program (LogWeight.add_ne_bot
    (LogWeight.sub_ne_bot hchange hforth.along.score_ne_bot) hback.along.score_ne_bot) check

end Grammar

end Deontic
