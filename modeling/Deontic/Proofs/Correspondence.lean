import Deontic.Proofs.Agreement
import Deontic.Proofs.Derivations
import Deontic.Proofs.Nesting

/-! Trees and their choices.  The standard vocabulary has one word for each variant of nodes, so
that the choices of a growth can be read off the tree: at each node its word, and at a leaf its text
(`Grown.entries_eq_marks`).  Growth therefore accepts, for a tree that derives from its rule,
exactly the choices that hold these entries and no others (`assess_growth_iff`). -/

namespace Deontic

namespace Vocabulary

/-- The entries that tell what a node is: its word, and the text of a leaf. -/
def nodeMarks (vocabulary : Vocabulary) (index : Int) (node : Tree) : List (Path × Value) :=
  match vocabulary.wordOf node with
  | .error _ => []
  | .ok word =>
    ([Grammar.key index "node_type"], .text word.name) ::
      match node with
      | .leaf _ text _ => [([Grammar.key index word.name], .text text)]
      | _ => []

/-- The entries of all nodes of a tree at an index and a level. -/
def marks (vocabulary : Vocabulary) (t : Tree) (index level : Int) : List (Path × Value) :=
  (t.walk index level).flatMap fun (i, _, node) => vocabulary.nodeMarks i node

/-- The standard words stand for different variants. -/
theorem wordOf_of_lookup {word : String} {found : Word} (h : standard.lookup word = .ok found)
    {t : Tree} (ht : t.shape = found.shape) :
    standard.wordOf t = .ok found ∧ found.name = word := by
  have hmem : (word, found) ∈ standard.words.entries := by
    rw [lookup] at h
    split at h
    · next hfound => cases h; exact Table.mem_of_get?_eq hfound
    · cases h
  have hall : ∀ entry ∈ standard.words.entries, entry.2.name = entry.1 ∧
      (standard.toList.find? fun word => word.shape == entry.2.shape) = some entry.2 := by
    decide
  obtain ⟨hname, hfind⟩ := hall _ hmem
  refine ⟨?_, hname⟩
  rw [wordOf, ht, hfind]

theorem wordOf_of_names {word : String} {shape : Shape} (h : standard.Names word shape) {t : Tree}
    (ht : t.shape = shape) : ∃ found, standard.wordOf t = .ok found ∧ found.name = word := by
  obtain ⟨found, hlookup, rfl⟩ := h
  exact ⟨found, wordOf_of_lookup hlookup ht⟩

theorem marks_ofBranch (vocabulary : Vocabulary) (kind : BranchKind) (left right : Tree)
    (index level : Int) : vocabulary.marks (.ofBranch kind left right) index level =
      vocabulary.nodeMarks index (.ofBranch kind left right) ++
        (vocabulary.marks left (Tree.leftOf index) (level + 1) ++
          vocabulary.marks right (Tree.rightOf index) (level + 1)) := by
  rw [marks, Tree.ofBranch, Tree.walk, List.flatMap_cons, List.flatMap_append]
  rfl

theorem marks_ofLeaf {word : String} {kind : LeafKind} (h : standard.Names word (.leaf kind))
    (text : String) (index level : Int) : standard.marks (.ofLeaf kind text) index level =
      [([Grammar.key index "node_type"], .text word), ([Grammar.key index word], .text text)] := by
  obtain ⟨found, hfound, rfl⟩ := wordOf_of_names h (show (Tree.ofLeaf kind text).shape = _ from rfl)
  show standard.nodeMarks index (.ofLeaf kind text) ++ [] = _
  rw [List.append_nil, nodeMarks, hfound]
  rfl

theorem marks_missing (index level : Int) : standard.marks .missing index level = [] := rfl

theorem nodeMarks_ofBranch {word : String} {kind : BranchKind}
    (h : standard.Names word (.branch kind)) (left right : Tree) (index : Int) :
    standard.nodeMarks index (.ofBranch kind left right) =
      [([Grammar.key index "node_type"], .text word)] := by
  obtain ⟨found, hfound, rfl⟩ :=
    wordOf_of_names h (show (Tree.ofBranch kind left right).shape = _ from rfl)
  rw [nodeMarks, hfound]
  rfl

end Vocabulary

/-- All entries stand in the choices, and nothing else does. -/
def Choices.Holds (choices : Choices) (entries : List (Path × Value)) : Prop :=
  ∀ path value, choices.flatten.get? path = some value ↔
    ∃ entry ∈ entries, (entry.1 == path) = true ∧ entry.2 = value

theorem Way.value?_eq_some {P : Type} {way : Way P} (h : way.Distinct)
    {path : Path} {value : Value} :
    way.value? path = some value ↔
      ∃ entry ∈ way.entries, (entry.1 == path) = true ∧ entry.2 = value := by
  constructor
  · intro hvalue
    obtain ⟨visit, hvisit, heq, rfl⟩ := Way.exists_of_value? hvalue
    exact ⟨visit.entry, List.mem_map_of_mem hvisit, heq, rfl⟩
  · rintro ⟨entry, hentry, heq, rfl⟩
    obtain ⟨visit, hvisit, rfl⟩ := List.mem_map.mp hentry
    have hkeys : (fun entry : Path × Value => entry.1 == path) =
        fun entry => entry.1 == visit.address :=
      funext fun _ => (BEq.congr_right heq).symm
    have hvalue := Way.value?_of_mem h hvisit
    rw [value?] at hvalue ⊢
    rw [hkeys]
    exact hvalue

/-- The choices of a trace hold the entries of its way. -/
theorem Trace.Along.holds {P W α : Type} [Scale P W] {trace : Trace P W α} {way : Way P}
    (h : trace.Along way) {choices : Choices} :
    choices.Holds way.entries ↔ ∀ path, choices.flatten.get? path = trace.choices.at? path := by
  simp only [Choices.Holds, ← Way.value?_eq_some h.distinct, ← h.at?_choices]
  exact ⟨fun hall path => Option.ext (hall path), fun hall path value => by rw [hall]⟩

namespace Grammar

/-- The choices of a growth tell what the nodes are. -/
theorem Grown.entries_eq_marks {P : Type} {grammar : Grammar P}
    (hstandard : grammar.vocabulary = .standard) {index : Int} {rule : String}
    {way : Way P} {t : Tree}
    (h : Grown grammar index rule way t) (level : Int) :
    way.entries = grammar.vocabulary.marks t index level := by
  rw [hstandard]
  induction h generalizing level with
  | leaf _ _ _ hbuilt =>
    obtain ⟨kind, hnames, rfl⟩ := Vocabulary.buildLeaf_eq_ok.mp hbuilt
    rw [hstandard] at hnames
    rw [Vocabulary.marks_ofLeaf hnames]
    rfl
  | single _ _ _ hbuilt ih =>
    obtain ⟨kind, hnames, rfl⟩ := Vocabulary.buildBranch_eq_ok.mp hbuilt
    rw [hstandard] at hnames
    rw [Vocabulary.marks_ofBranch, Vocabulary.nodeMarks_ofBranch hnames, Vocabulary.marks_missing,
      ← ih, List.append_nil]
    rfl
  | pair _ _ _ _ hbuilt ihl ihr =>
    obtain ⟨kind, hnames, rfl⟩ := Vocabulary.buildBranch_eq_ok.mp hbuilt
    rw [hstandard] at hnames
    rw [Vocabulary.marks_ofBranch, Vocabulary.nodeMarks_ofBranch hnames, ← ihl, ← ihr,
      Way.entries, List.map_cons, List.map_append]
    rfl

/-- A derivation with possible choices is recorded by a trace of the growth. -/
theorem Grown.exists_growth {grammar : Grammar ℚ} (hnames : grammar.Distinguished) {index : Int}
    (hindex : 1 ≤ index) {rule : String} {way : Way ℚ} {t : Tree}
    (h : Grown grammar index rule way t)
    (hpossible : ∀ visit ∈ way, Scale.isImpossible ℚ (visit.density : LogWeight) = false) :
    ∃ trace : Trace ℚ LogWeight Tree, trace.Along way ∧
      trace.program = grammar.growth index rule ∧ trace.result = t := by
  refine Program.exists_along (fun calls => h.follows) (h.distinct hnames hindex) ?_ hpossible
  apply Choices.exists_setAll_of_length 0
  intro entry hentry
  obtain ⟨visit, hvisit, rfl⟩ := List.mem_map.mp hentry
  obtain ⟨j, name, -, haddress⟩ := h.exists_key visit hvisit
  rw [Visit.entry, haddress]
  exact ⟨rfl, rfl⟩

/-- What a trace of a growth has grown derives from the rule, and its choices tell the nodes. -/
theorem derives_of_along {grammar : Grammar ℚ} (hstandard : grammar.vocabulary = .standard)
    {index : Int} {rule : String} {trace : Trace ℚ LogWeight Tree} {way : Way ℚ}
    (halong : trace.Along way) (hprogram : trace.program = grammar.growth index rule) :
    grammar.Derives rule trace.result ∧
      way.entries = grammar.vocabulary.marks trace.result index 1 := by
  have hgrown := Grown.of_follows (halong.follows_program hprogram le_rfl)
  exact ⟨hgrown.derives halong.possible, hgrown.entries_eq_marks hstandard 1⟩

/-- **Trees and choices correspond.**  From given choices a growth comes to a tree of positive
weight if and only if the tree derives from the rule and the choices hold, for every node that is
not missing, its word and for every leaf its text, and nothing else.  So growths from one rule at
one index that come to equal trees have made equal choices. -/
theorem assess_growth_iff {grammar : Grammar ℚ} (hvalid : grammar.validate = .ok ())
    (hstandard : grammar.vocabulary = .standard) (rule : String)
    {index : Int} (hindex : 1 ≤ index) :
    (∀ (choices : Choices) (t : Tree) (supply : Supply ℚ),
      (∃ (score : LogWeight) (rest : Supply ℚ), score ≠ ⊥ ∧
          ((grammar.growth index rule).assess choices).Yields supply (score, some t) rest) ↔
        grammar.Derives rule t ∧ choices.Holds (grammar.vocabulary.marks t index 1)) ∧
    ∀ first second : Trace ℚ LogWeight Tree, (grammar.growth index rule).Obtained first →
      (grammar.growth index rule).Obtained second → (first.result == second.result) = true →
      (first.choices == second.choices) = true := by
  have hnames := distinguished_of_validate hvalid hstandard
  have hsteady := steady_growth grammar index rule
  constructor
  · intro choices t supply
    constructor
    · rintro ⟨score, rest, hscore, hassess⟩
      obtain ⟨trace, way, halong, hprogram, -, hresult, hvalues⟩ :=
        Program.exists_along_of_assess hsteady hassess hscore
      obtain rfl := Option.some.inj hresult
      obtain ⟨hderives, hentries⟩ := derives_of_along hstandard halong hprogram
      refine ⟨hderives, ?_⟩
      rw [← hentries, halong.holds]
      exact fun path => (hvalues path).symm
    · rintro ⟨hderives, hholds⟩
      obtain ⟨way, hgrown, hpossible⟩ := hderives.exists_grown index
      obtain ⟨trace, halong, hprogram, rfl⟩ := hgrown.exists_growth hnames hindex hpossible
      rw [← hgrown.entries_eq_marks hstandard, halong.holds] at hholds
      obtain ⟨records, hassess⟩ := halong.assess hholds supply
      rw [hprogram] at hassess
      exact ⟨trace.score, _, halong.score_ne_bot, hassess⟩
  · intro first second hfirst hsecond hequal
    have hfair := fair_grow (weighed_of_validate hvalid)
    obtain ⟨way, halong⟩ := hfirst.exists_along (fun calls => hfair calls index rule) hsteady
    obtain ⟨way', halong'⟩ := hsecond.exists_along (fun calls => hfair calls index rule) hsteady
    obtain ⟨hderives, hentries⟩ := derives_of_along hstandard halong hfirst.program_eq
    obtain ⟨hderives', hentries'⟩ := derives_of_along hstandard halong' hsecond.program_eq
    have hresult := hderives.sound.eq_of_beq hderives'.sound hequal
    apply Choices.beq_of_at? halong.tidied halong'.tidied
    intro path
    rw [halong.at?_choices, halong'.at?_choices, Way.value?, Way.value?, hentries,
      hentries', hresult]

/-- An obligation for one colour, grown at index 3. -/
theorem assess_growth_iff_uneven :
    ∃ (choices : Choices) (t : Tree), uneven.Derives "DUTY" t ∧
      choices.Holds (uneven.vocabulary.marks t 3 1) ∧
      ∃ (score : LogWeight) (rest : Supply ℚ), score ≠ ⊥ ∧
        ((uneven.growth 3 "DUTY").assess choices).Yields ⟨[], []⟩ (score, some t) rest := by
  let choices : Choices := .value (key 3 "node_type") (.text "Obl")
    (.value (key 6 "node_type") (.text "Colour") (.value (key 6 "Colour") (.text "red") .empty))
  have hruns : ((uneven.growth 3 "DUTY").assess choices).any ⟨[], []⟩
      (fun (found : LogWeight × Option Tree) _ => found.1 != ⊥ && found.2.isSome) = true := by
    decide +kernel
  obtain ⟨⟨score, outcome⟩, rest, hassess, hfound⟩ := Act.exists_yields hruns
  obtain ⟨hscore, hsome⟩ := Bool.and_eq_true_iff.mp hfound
  obtain ⟨t, rfl⟩ := Option.isSome_iff_exists.mp hsome
  have hscore := bne_iff_ne.mp hscore
  obtain ⟨hcorrespond, -⟩ :=
    assess_growth_iff validate_uneven rfl "DUTY" (show 1 ≤ (3 : Int) by decide)
  obtain ⟨hderives, hholds⟩ := (hcorrespond choices t ⟨[], []⟩).mp ⟨score, rest, hscore, hassess⟩
  exact ⟨choices, t, hderives, hholds, score, rest, hscore, hassess⟩

end Grammar

end Deontic
