import Deontic.Proofs.Regrowing

/-! Which trees a chain reaches.  One step leads from a branch to every other branch that the model
builds, and from a leaf to every leaf of the same kind.  No step that can be accepted leads
elsewhere: a leaf that took the place of a branch would have to be regrown as that branch on the way
back, which has weight zero (`Ready.alike_of_moves`).  So accepted moves lead from a tree to the
trees that are alike, and to no others (`reaches_iff`). -/

namespace Deontic.Grammar

open Deontic.Tree

variable {grammar : Grammar ℚ} {trace other : Trace ℚ LogWeight Tree}

/-! ### What a step keeps -/

/-- The address of the word for the root, below a label. -/
def rootWord (label : String) : Path := [.text label, key 1 "node_type"]

/-- The first choice of a derivation is the word for its tree. -/
theorem Grown.exists_root {index : Int} {rule : String} {way : Way ℚ} {t : Tree}
    (h : Grown grammar index rule way t) :
    ∃ word parts, grammar.parts? rule word = some parts ∧ grammar.vocabulary.Names word t.shape ∧
      way.value? [key index "node_type"] = some (.text word) := by
  have hfirst (weights : Table String ℚ) (word : String) (rest : Way ℚ) :
      Way.value? (wordVisit index weights word :: rest) [key index "node_type"] =
        some (.text word) := by
    rw [Way.value?_cons, wordVisit, BEq.rfl, if_pos rfl]
  cases h with
  | leaf _ hparts _ hbuilt =>
    obtain ⟨kind, hnames, rfl⟩ := Vocabulary.buildLeaf_eq_ok.mp hbuilt
    exact ⟨_, _, hparts, hnames, hfirst ..⟩
  | single _ hparts _ hbuilt | pair _ hparts _ _ hbuilt =>
    obtain ⟨kind, hnames, rfl⟩ := Vocabulary.buildBranch_eq_ok.mp hbuilt
    exact ⟨_, _, hparts, hnames, hfirst ..⟩

theorem exists_root_of_model {way : Way ℚ} (htrace : trace.Along way)
    (hmodel : trace.program = grammar.model) :
    ∃ word, grammar.vocabulary.Names word trace.result.shape ∧
      trace.choices.at? (rootWord "tree") = some (.text word) := by
  obtain ⟨whole, rfl, hwhole, -⟩ := exists_grown_of_model htrace hmodel
  obtain ⟨word, _, -, hnames, hvalue⟩ := hwhole.exists_root
  refine ⟨word, hnames, ?_⟩
  rw [htrace.at?_choices, rootWord, Way.value?_under, BEq.rfl, if_pos rfl, hvalue]

theorem Derives.shape_ne_empty {rule : String} {t : Tree} (h : grammar.Derives rule t) :
    t.shape ≠ .empty := by
  cases h with
  | leaf | single | pair => exact nofun

/-- A proposal for a leaf that regrows the root gives it the word of that leaf. -/
theorem names_of_proposed (hvalid : grammar.validate = .ok ())
    (hstandard : grammar.vocabulary = .standard) {rule : String} {root : Tree} {kind : LeafKind}
    (hroot : grammar.Derives rule root) (hshape : root.shape = .leaf kind)
    {forward : Trace ℚ LogWeight Proposal} {way : Way ℚ} (hforward : forward.Along way)
    (hproposal : forward.program = grammar.proposal root) {word : String}
    (hvalue : forward.choices.at? (rootWord "subtree") = some (.text word)) :
    grammar.vocabulary.Names word (.leaf kind) := by
  obtain ⟨walk, picked, hpicked, -, -, -, hgrowth⟩ :=
    exists_of_follows_proposal (hforward.follows_program hproposal le_rfl)
  rw [hforward.at?_choices] at hvalue
  rcases hgrowth with ⟨-, rfl, -⟩ | ⟨-, regrown, growth, hrule, hgrown, rfl⟩
  · have hlabels : (Value.text "pick_node" == Value.text "subtree") = false := by decide
    rw [rootWord, Way.value?_under, hlabels] at hvalue
    cases hvalue
  rw [rootWord, Way.value?_text, if_neg (by decide), if_pos rfl] at hvalue
  obtain ⟨offered, text, hoffers, hnames, -, rfl⟩ := hroot.exists_leaf hshape
  -- a leaf has no other node to be picked
  obtain ⟨steps, hindex, hnode⟩ := hpicked.exists_descend
  have hpickedRoot : steps = [] ∧ picked.node = .ofLeaf kind text := by
    cases steps with
    | nil => exact ⟨rfl, (Option.some.inj ((follow?_nil _).symm.trans hnode)).symm⟩
    | cons side rest => cases side <;> cases hnode
  obtain ⟨rfl, hleaf⟩ := hpickedRoot
  rw [hleaf] at hrule
  rw [hindex] at hgrown
  obtain ⟨other, parts, hparts, -, hother⟩ := (Grown.of_follows hgrown).exists_root
  obtain rfl : other = word := Value.text.inj (Option.some.inj (hother.symm.trans hvalue))
  rwa [alone_of_regrowth hvalid hstandard hoffers.1 hnames rfl hrule hparts]

/-- **A step that accepts keeps the kind of a leaf, and makes no leaf of a branch.** -/
theorem Ready.alike_of_moves (h : grammar.Ready) (hvalid : grammar.validate = .ok ())
    {way : Way ℚ} (htrace : trace.Along way) (hmodel : trace.program = grammar.model)
    {check : Bool} (hmoves : grammar.kernel.Moves check trace other) :
    trace.result.shape.Alike other.result.shape := by
  have hweighed := weighed_of_validate hvalid
  obtain ⟨forward, weighing, supply, middle, rest, hdraws, hforward, hweigh, rfl, hpos⟩ :=
    hmoves.exists_weighing Trace.shortens_replace
  have hmiddle := (Program.shortens_simulate _).unitDraws hforward hdraws
  have hback : weighing.back ≠ ⊥ := by
    intro hnone
    apply Kernel.acceptance_pos.mp hpos
    rw [Weighing.ratio, hnone]
    exact LogWeight.ext (mul_zero _)
  obtain ⟨-, left, _, _, hmove, hassess⟩ := Kernel.exists_of_weigh hweigh
  obtain ⟨discard, _, hupdate, hundo, -⟩ := Trace.yields_replace.mp hmove
  obtain ⟨way', hmoved, hrevision, -⟩ := htrace.exists_revision (hmodel ▸ grammar.steady_model)
    hupdate fun _ _ hcompletes _ => hcompletes.possible (hmodel ▸ fair_model hweighed) hmiddle
  obtain ⟨hproposal, way₁, hforwarded, -⟩ := (Program.simulates_iff (fair_proposal hweighed _)
    (grammar.steady_proposal _)).mp ⟨supply, middle, hdraws, hforward⟩
  obtain ⟨backward, way₂, hbackward, hproposal', -, -, hvalues⟩ :=
    Program.exists_along_of_assess (grammar.steady_proposal _) hassess hback
  have hmodel' := hrevision.program.trans hmodel
  have hderives := derives_of_model htrace hmodel
  have hderives' := derives_of_model hmoved hmodel'
  obtain ⟨word, hnames, hword⟩ := exists_root_of_model htrace hmodel
  obtain ⟨word', hnames', hword'⟩ := exists_root_of_model hmoved hmodel'
  refine .of_leaf_iff hderives.shape_ne_empty hderives'.shape_ne_empty fun kind => ?_
  have hedits : forward.choices.edits.flatten.get? (rootWord "tree") =
      forward.choices.at? (rootWord "subtree") := by
    rw [Choices.get?_flatten hforwarded.tidied.edits, Choices.at?_edits hforwarded.tidied]
    exact Choices.rekeyed_text ..
  have hfound := hrevision.values _ _ hword'
  rw [hedits, hword] at hfound
  cases hregrown : forward.choices.at? (rootWord "subtree") with
  | none =>
    -- the root keeps its word
    rw [hregrown] at hfound
    obtain rfl : word = word' := Value.text.inj (Option.some.inj hfound)
    rw [hnames.unique hnames']
  | some value =>
    rw [hregrown] at hfound
    obtain rfl : value = .text word' := Option.some.inj hfound
    have hreturn : backward.choices.at? (rootWord "subtree") = some (.text word) := by
      have hdiscard := hrevision.discards (rootWord "tree")
      rw [hedits, hregrown, Option.isNone_some, Bool.and_false, if_neg Bool.false_ne_true, hword,
        rootWord] at hdiscard
      rw [hvalues, hundo, Choices.get?_flatten (hforwarded.tidied.undoing hrevision.tidied),
        Choices.at?_undoing hforwarded.tidied hrevision.tidied, rootWord, Choices.rekeyed_text,
        hdiscard, Option.some_or]
    constructor
    · intro hleaf
      exact (hnames'.unique
        (names_of_proposed hvalid h.standard hderives hleaf hforwarded hproposal hregrown))
    · intro hleaf
      exact (hnames.unique
        (names_of_proposed hvalid h.standard hderives' hleaf hbackward hproposal' hreturn))

/-! ### What a chain keeps -/

/-- Accepted moves lead from a tree of the model to trees that are alike. -/
theorem Ready.alike_of_reaches (h : grammar.Ready) (hvalid : grammar.validate = .ok ())
    (htrace : grammar.model.Obtained trace) {check : Bool}
    (hreaches : Relation.ReflTransGen (grammar.kernel.Moves check) trace other) :
    trace.result.shape.Alike other.result.shape := by
  have hfair := fair_model (weighed_of_validate hvalid)
  induction hreaches with
  | refl =>
    obtain ⟨_, halong⟩ := htrace.exists_along hfair grammar.steady_model
    exact .refl (derives_of_model halong htrace.program_eq).shape_ne_empty
  | tail hreaches hmoves ih =>
    have hobtained := obtained_of_reaches htrace hreaches
    obtain ⟨_, halong⟩ := hobtained.exists_along hfair grammar.steady_model
    exact ih.trans (h.alike_of_moves hvalid halong hobtained.program_eq hmoves)

/-- **Which trees a chain reaches.**  Accepted moves lead from one tree that the model builds to
another if and only if both are branches, or both are leaves of one kind.  So a chain that starts at
a leaf ends at a leaf of that kind, and one that starts at a branch does not end at a leaf. -/
theorem reaches_iff (hvalid : grammar.validate = .ok ())
    (hstandard : grammar.vocabulary = .standard) (htrace : grammar.model.Simulates trace)
    (hother : grammar.model.Simulates other) (check : Bool) :
    (Relation.ReflTransGen (grammar.kernel.Moves check) trace other ↔
        trace.result.shape.Alike other.result.shape) ∧
      ∀ (steps : Int) (last : Trace ℚ LogWeight Tree) (accepted : Nat) (supply rest : Supply ℚ),
        UnitDraws supply.draws →
        (grammar.kernel.chain steps check trace).Yields supply (last, accepted) rest →
        trace.result.shape.Alike last.result.shape := by
  have hready := ready_of_validate hvalid hstandard
  have hweighed := weighed_of_validate hvalid
  have hobtained : grammar.model.Obtained trace := by
    obtain ⟨supply, rest, hdraws, hsimulate⟩ := htrace
    exact .simulate hdraws hsimulate
  constructor
  · constructor
    · exact hready.alike_of_reaches hvalid hobtained
    · intro halike
      obtain ⟨hmodel, _, halong⟩ := (hready.simulates_model_iff hweighed).mp htrace
      obtain ⟨hmodel', _, halong'⟩ := (hready.simulates_model_iff hweighed).mp hother
      exact .single (hready.moves_of_alike hvalid (distinguished_of_validate hvalid hstandard)
        halong hmodel halong' hmodel' halike check)
  · intro steps last accepted supply rest hdraws hchain
    exact hready.alike_of_reaches hvalid hobtained (reaches_of_chain hchain hdraws).1

/-- A grammar whose trees are colours, alone or below a norm. -/
def plain : Grammar ℚ where
  rules := .ofList [("NORMS", .ofList [("Norm", ["COLOUR"]), ("Colour", [])]),
    ("COLOUR", .ofList [("Colour", [])])]
  wordWeights := .ofList [("NORMS", .ofList [("Norm", 1 / 2), ("Colour", 1 / 2)]),
    ("COLOUR", .ofList [("Colour", 1)])]
  textWeights := .ofList [("Colour", .ofList [("red", 1 / 3), ("blue", 2 / 3)])]
  root := "NORMS"
  vocabulary := .standard

theorem validate_plain : plain.validate = .ok () := validate_of_isOk (by decide +kernel)

/-- From a norm for one colour the norm for the other is reached, and a colour alone is not. -/
theorem reaches_iff_plain :
    ∃ norm other colour : Trace ℚ LogWeight Tree, plain.model.Simulates norm ∧
      plain.model.Simulates other ∧ plain.model.Simulates colour ∧
      norm.result.shape = .branch .norm ∧ (norm.result == other.result) = false ∧
      colour.result.shape = .leaf .colour ∧
      Relation.ReflTransGen (plain.kernel.Moves true) norm other ∧
      ¬ Relation.ReflTransGen (plain.kernel.Moves true) norm colour := by
  have hunit : UnitDraws ([0, 0, 0] : List ℚ) := by decide +kernel
  have hunit' : UnitDraws ([0, 0, 1 / 2] : List ℚ) := by decide +kernel
  have hunit'' : UnitDraws ([1 / 2, 0] : List ℚ) := by decide +kernel
  have hruns : plain.model.simulate.any ⟨[0, 0, 0], []⟩
      (fun (norm : Trace ℚ LogWeight Tree) _ => plain.model.simulate.any ⟨[0, 0, 1 / 2], []⟩
        fun (other : Trace ℚ LogWeight Tree) _ => norm.result.shape == .branch .norm &&
          other.result.shape == .branch .norm && !norm.result == other.result) = true := by
    decide +kernel
  have hruns' : plain.model.simulate.any ⟨[1 / 2, 0], []⟩
      (fun (colour : Trace ℚ LogWeight Tree) _ => colour.result.shape == .leaf .colour) = true := by
    decide +kernel
  obtain ⟨norm, _, hnorm, hruns⟩ := Act.exists_yields hruns
  obtain ⟨other, _, hother, hall⟩ := Act.exists_yields hruns
  obtain ⟨colour, _, hcolour, hleaf⟩ := Act.exists_yields hruns'
  have hshape'' := eq_of_beq hleaf
  simp only [Bool.and_eq_true, beq_iff_eq, Bool.not_eq_true'] at hall
  obtain ⟨⟨hshape, hshape'⟩, hdiffer⟩ := hall
  have hnorm : plain.model.Simulates norm := ⟨_, _, hunit, hnorm⟩
  have hother : plain.model.Simulates other := ⟨_, _, hunit', hother⟩
  have hcolour : plain.model.Simulates colour := ⟨_, _, hunit'', hcolour⟩
  refine ⟨norm, other, colour, hnorm, hother, hcolour, hshape, hdiffer, hshape'', ?_, ?_⟩
  · exact (reaches_iff validate_plain rfl hnorm hother true).1.mpr
      (.inl ⟨.norm, .norm, hshape, hshape'⟩)
  · rw [(reaches_iff validate_plain rfl hnorm hcolour true).1, hshape, hshape'']
    rintro (⟨_, _, -, h⟩ | ⟨_, h, -⟩)
    · cases h
    · cases h

end Deontic.Grammar
