import Deontic.Proofs.Criterion

/-! Words for one variant of leaves.  A leaf does not keep the word that it was grown from; it is
regrown as the first word for its variant.  A vocabulary is faithful if all words for a variant are
regrown under the rule of the first one.  Under the grammars that pass the check every leaf is
regrown as the word it was grown from exactly if the vocabulary is faithful
(`Grammar.regrows_as_iff`). -/

namespace Deontic

/-- For every variant of leaves, all words are regrown under the rule of the first one.  A word that
is written like the key of the choice of words is left out, since it cannot be grown. -/
def Vocabulary.Faithful (vocabulary : Vocabulary) : Prop :=
  ∀ name word kind rule, vocabulary.words.get? name = some word → name ≠ "node_type" →
    word.shape = .leaf kind → word.regrowth = some rule →
    ∀ text, vocabulary.regrowthRule (.ofLeaf kind text) = .ok rule

theorem Table.get?_singleton {ν : Type} {name key : String} {value found : ν} :
    (Table.ofList [(name, value)]).get? key = some found ↔ key = name ∧ found = value := by
  rw [Table.get?_ofList (List.pairwise_singleton _ _), List.find?_singleton]
  by_cases h : name = key
  · rw [if_pos (beq_iff_eq.mpr h)]
    exact ⟨fun heq => ⟨h.symm, (Option.some.inj heq).symm⟩, fun heq => congrArg some heq.2.symm⟩
  · rw [if_neg (beq_iff_eq.not.mpr h)]
    exact ⟨nofun, fun heq => (h heq.1.symm).elim⟩

theorem Table.get?_singleton_isSome {ν : Type} {name key : String} {value : ν} :
    ((Table.ofList [(name, value)]).get? key).isSome = true ↔ key = name := by
  simp [Option.isSome_iff_exists, get?_singleton]

namespace Grammar

variable {grammar : Grammar ℚ} {rule name : String} {kind : LeafKind} {index : Int}

/-! ### Rules for one word -/

/-- A rule that offers one word, and that for leaves, with all that growth looks up. -/
structure Lone (grammar : Grammar ℚ) (rule name : String) (kind : LeafKind) : Prop where
  parts {word : String} {parts : List String} :
    grammar.parts? rule word = some parts ↔ word = name ∧ parts = []
  weights : ∃ weights, grammar.wordWeights.get? rule = some weights ∧
    (Distribution.ofTexts weights).Proper ∧ ∀ word ∈ weights.keys, word = name
  texts : ∃ texts, grammar.textWeights.get? name = some texts ∧ (Distribution.ofTexts texts).Proper
  names : grammar.vocabulary.Names name (.leaf kind)

/-- The two choices of a leaf are at different addresses, which can be recorded. -/
theorem orderly_leaf (hname : name ≠ "node_type") (index : Int) :
    Path.Orderly 0 [[key index "node_type"], [key index name]] := by
  refine ⟨List.pairwise_pair.mpr (keyed_ne (.inr hname.symm)), ?_⟩
  exact List.forall_mem_cons.mpr ⟨⟨rfl, rfl⟩, List.forall_mem_singleton.mpr ⟨rfl, rfl⟩⟩

/-- From a draw a proper row of weights chooses one of its texts. -/
theorem exists_sample_text {weights : Table String ℚ} (h : (Distribution.ofTexts weights).Proper)
    {draw : ℚ} {rest : List ℚ} (hdraws : UnitDraws (draw :: rest)) :
    ∃ text ∈ weights.keys, (Distribution.ofTexts weights).sample (draw :: rest) =
      .ok (.text text, rest) := by
  obtain ⟨value, hvalue⟩ := h.exists_sample (hdraws draw List.mem_cons_self).2 rest
  have hpossible := Distribution.possible_of_sample h.fair hdraws hvalue
  obtain ⟨text, rfl, htext⟩ := Distribution.exists_text_of_possible hpossible
  exact ⟨text, htext, hvalue⟩

/-- Whatever is drawn, two draws grow a leaf from a rule for one word. -/
theorem Lone.exists_simulate (h : Lone grammar rule name kind) (hname : name ≠ "node_type")
    (index : Int) {supply : Supply ℚ} (hdraws : UnitDraws supply.draws)
    (hlong : 2 ≤ supply.draws.length) :
    ∃ (trace : Trace ℚ LogWeight Tree) (rest : Supply ℚ),
      (grammar.growth index rule).simulate.Yields supply trace rest := by
  obtain ⟨_ | ⟨first, _ | ⟨second, later⟩⟩, records⟩ := supply
  · cases hlong
  · simp at hlong
  obtain ⟨weights, hweights, hproper, halone⟩ := h.weights
  obtain ⟨texts, htexts, hproper'⟩ := h.texts
  obtain ⟨word, hword, hsample⟩ := exists_sample_text hproper hdraws
  obtain ⟨text, -, hsample'⟩ := exists_sample_text hproper' hdraws.tail
  obtain rfl := halone word hword
  let way : Way ℚ := [wordVisit index weights word, textVisit index word texts text]
  have hgrown : Grown grammar index rule way (.ofLeaf kind text) :=
    .leaf hweights (h.parts.mpr ⟨rfl, rfl⟩) htexts
      (Vocabulary.buildLeaf_eq_ok.mpr ⟨_, h.names, rfl⟩)
  have horderly : Path.Orderly 0 way.addresses := orderly_leaf hname index
  have hdrawn : (way.ofOrigin .free .fresh).DrawnFrom (first :: second :: later) later :=
    ⟨hsample, hsample', rfl⟩
  have hadmits : (Run.start (first :: second :: later) [] : Run ℚ LogWeight).AdmitsAll .free way :=
    Run.admitsAll_of_drawn nofun (fun _ _ _ => rfl) hdrawn horderly.distinct (fun _ _ => rfl)
      horderly.exists_recorded
  have hcompletes : Program.Completes (W := LogWeight) (grammar.growth index rule) .free
      (⟨first :: second :: later, records⟩ : Supply ℚ).draws way (.ofLeaf kind text) :=
    ⟨hgrown.follows (by simp [Program.calls, way]; omega), hadmits, nofun⟩
  obtain ⟨records', hyields⟩ := hcompletes.yields
  exact ⟨_, _, Program.yields_simulate.mpr ⟨_, _, hyields, rfl⟩⟩

/-- Whatever a rule for one word grows is a leaf of that word. -/
theorem Lone.leaf_of_grown (h : Lone grammar rule name kind) {way : Way ℚ} {t : Tree}
    (hgrown : Grown grammar index rule way t) :
    t.shape = .leaf kind ∧ ∃ weights, wordVisit index weights name ∈ way := by
  cases hgrown with
  | leaf _ hparts _ hbuilt =>
    obtain ⟨rfl, -⟩ := h.parts.mp hparts
    obtain ⟨kind', hnames, rfl⟩ := Vocabulary.buildLeaf_eq_ok.mp hbuilt
    obtain ⟨found, hfound, hshape⟩ := hnames
    obtain ⟨other, hother, hshape'⟩ := h.names
    obtain rfl := Except.ok.inj (hfound.symm.trans hother)
    exact ⟨hshape.symm.trans hshape', _, List.mem_cons_self⟩
  | single _ hparts => cases (h.parts.mp hparts).2
  | pair _ hparts => cases (h.parts.mp hparts).2

/-- A trace of growth is along a derivation. -/
theorem exists_grown_of_obtained (hweighed : grammar.Weighed) {trace : Trace ℚ LogWeight Tree}
    (htrace : (grammar.growth index rule).Obtained trace) :
    ∃ way, trace.Along way ∧ Grown grammar index rule way trace.result := by
  obtain ⟨way, halong⟩ := htrace.exists_along (fun calls => fair_grow hweighed calls index rule)
    (steady_growth grammar index rule)
  exact ⟨way, halong, .of_follows (halong.follows_program htrace.program_eq le_rfl)⟩

/-- The word of a choice that a trace has made. -/
theorem at?_of_wordVisit {trace : Trace ℚ LogWeight Tree} {way : Way ℚ} (halong : trace.Along way)
    {weights : Table String ℚ} {word : String} (hvisit : wordVisit index weights word ∈ way) :
    trace.choices.at? [key index "node_type"] = some (.text word) := by
  rw [halong.at?_choices]
  exact Way.value?_of_mem halong.distinct hvisit

/-- A valid grammar regrows the leaves of a word under a rule for that word alone. -/
theorem Valid.lone (hvalid : grammar.Valid) {word : Word}
    (hword : grammar.vocabulary.words.get? name = some word) (hshape : word.shape = .leaf kind)
    (husable : grammar.Usable name []) :
    ∃ rule offered, word.regrowth = some rule ∧ grammar.rules.get? rule = some offered ∧
      offered.keys = [name] ∧ grammar.Lone rule name kind := by
  cases husable with
  | branch _ _ hnonempty => exact (hnonempty rfl).elim
  | @leaf word' texts rule offered hword' _ htexts hregrowth hoffered halone =>
    obtain rfl := Option.some.inj (hword.symm.trans hword')
    obtain ⟨weights, hweights, hsame, hproper⟩ := hvalid.weighed hoffered
    have hkeys : offered.keys = [name] := by
      have hnodup : offered.keys.Nodup := List.pairwise_map.mpr
        (offered.distinct.imp fun hne heq => by rw [heq, beq_self_eq_true] at hne; cases hne)
      refine List.perm_singleton.mp
        ((List.perm_ext_iff_of_nodup hnodup (List.nodup_singleton _)).mpr fun other => ?_)
      rw [← Table.get?_isSome_iff_mem_keys, halone, List.mem_singleton]
    obtain ⟨parts, hparts⟩ := Option.isSome_iff_exists.mp ((halone name).mpr rfl)
    have hnone : parts = [] := by
      cases hvalid.usable hoffered hparts with
      | leaf => rfl
      | branch hword' hbranch =>
        obtain rfl := Option.some.inj (hword.symm.trans hword')
        rw [hshape] at hbranch
        cases hbranch
    refine ⟨rule, offered, hregrowth, hoffered, hkeys, ⟨?_, ⟨weights, hweights, hproper.proper, ?_⟩,
      ⟨texts, htexts, (hvalid.texts htexts).proper⟩, word, lookup_eq_ok.mpr hword, hshape⟩⟩
    · intro other others
      rw [parts?, hoffered, Option.bind_some]
      constructor
      · intro hother
        obtain rfl := (halone other).mp (by rw [hother]; rfl)
        exact ⟨rfl, (Option.some.inj (hother.symm.trans hparts)).trans hnone⟩
      · rintro ⟨rfl, rfl⟩
        rw [hparts, hnone]
    · intro other hother
      rw [← Table.get?_isSome_iff_mem_keys, hsame] at hother
      exact (halone other).mp hother

/-! ### Leaves and their words -/

/-- A leaf with a text in a tree has been grown from a word for leaves of its kind. -/
theorem Grown.exists_leaf {rule : String} {way : Way ℚ} {t leaf : Tree}
    (h : Grown grammar index rule way t) {steps : List Tree.Side}
    (hleaf : t.follow? steps = some leaf) (hshape : leaf.shape = .leaf kind) :
    ∃ part word weights texts text, grammar.parts? part word = some [] ∧
      grammar.vocabulary.Names word (.leaf kind) ∧ leaf = .ofLeaf kind text ∧
      List.Sublist [wordVisit (Tree.descend index steps) weights word,
        textVisit (Tree.descend index steps) word texts text] way := by
  induction h generalizing steps with
  | leaf _ hparts _ hbuilt =>
    obtain ⟨kind', hnames, rfl⟩ := Vocabulary.buildLeaf_eq_ok.mp hbuilt
    cases steps with
    | cons side rest => cases side <;> cases hleaf
    | nil =>
      cases hleaf
      cases hshape
      exact ⟨_, _, _, _, _, hparts, hnames, rfl, .refl _⟩
  | single _ _ _ hbuilt ih =>
    obtain ⟨kind', -, rfl⟩ := Vocabulary.buildBranch_eq_ok.mp hbuilt
    rcases steps with _ | ⟨_ | _, rest⟩
    · cases hleaf
      cases hshape
    · obtain ⟨part, word, weights, texts, text, hparts, hnames, heq, hway⟩ := ih hleaf
      exact ⟨part, word, weights, texts, text, hparts, hnames, heq, hway.cons _⟩
    · rcases rest with _ | ⟨_ | _, rest⟩
      · cases hleaf
        cases hshape
      · cases hleaf
      · cases hleaf
  | pair _ _ _ _ hbuilt ihl ihr =>
    obtain ⟨kind', -, rfl⟩ := Vocabulary.buildBranch_eq_ok.mp hbuilt
    rcases steps with _ | ⟨_ | _, rest⟩
    · cases hleaf
      cases hshape
    · obtain ⟨part, word, weights, texts, text, hparts, hnames, heq, hway⟩ := ihl hleaf
      exact ⟨part, word, weights, texts, text, hparts, hnames, heq,
        (hway.trans (List.sublist_append_left _ _)).cons _⟩
    · obtain ⟨part, word, weights, texts, text, hparts, hnames, heq, hway⟩ := ihr hleaf
      exact ⟨part, word, weights, texts, text, hparts, hnames, heq,
        (hway.trans (List.sublist_append_right _ _)).cons _⟩

/-- A run of growth from the root rule builds a leaf with a text from the word `name`. -/
def Builds (grammar : Grammar ℚ) (name : String) (leaf : Tree) : Prop :=
  ∃ index trace steps kind, 1 ≤ index ∧ (grammar.growth index grammar.root).Obtained trace ∧
    trace.result.follow? steps = some leaf ∧ leaf.shape = .leaf kind ∧
    trace.choices.at? [key (Tree.descend index steps) "node_type"] = some (.text name)

/-- A leaf is regrown under a rule of the grammar that offers `name` and no other word.  At every
position, whatever is drawn, two draws regrow it, and whatever is regrown is a leaf of its variant
from the word `name`. -/
def RegrowsAs (grammar : Grammar ℚ) (name : String) (leaf : Tree) : Prop :=
  ∃ rule offered, grammar.regrowthRule leaf = .ok rule ∧
    grammar.rules.get? rule = some offered ∧ offered.keys = [name] ∧
    ∀ index,
      (∀ supply : Supply ℚ, UnitDraws supply.draws → 2 ≤ supply.draws.length →
        ∃ (trace : Trace ℚ LogWeight Tree) (rest : Supply ℚ),
          (grammar.growth index rule).simulate.Yields supply trace rest) ∧
      ∀ trace, (grammar.growth index rule).Obtained trace → trace.result.shape = leaf.shape ∧
        trace.choices.at? [key index "node_type"] = some (.text name)

/-- What is built from a word can be offered, and its word is not that of the other key. -/
theorem Builds.exists_names (hweighed : grammar.Weighed) {leaf : Tree}
    (h : grammar.Builds name leaf) : name ≠ "node_type" ∧
      ∃ kind text part, grammar.parts? part name = some [] ∧
        grammar.vocabulary.Names name (.leaf kind) ∧ leaf = .ofLeaf kind text := by
  obtain ⟨index, trace, steps, kind, -, htrace, hleaf, hshape, hname⟩ := h
  obtain ⟨way, halong, hgrown⟩ := exists_grown_of_obtained hweighed htrace
  obtain ⟨part, word, weights, texts, text, hparts, hnames, rfl, hway⟩ :=
    hgrown.exists_leaf hleaf hshape
  rw [at?_of_wordVisit halong (hway.subset List.mem_cons_self)] at hname
  obtain rfl := Value.text.inj (Option.some.inj hname)
  refine ⟨?_, kind, text, part, hparts, hnames, rfl⟩
  rintro rfl
  have hdistinct := halong.distinct.sublist (hway.map Visit.address)
  have hne : ([key (Tree.descend index steps) "node_type"] ==
      [key (Tree.descend index steps) "node_type"]) = false :=
    List.rel_of_pairwise_cons hdistinct List.mem_cons_self
  rw [BEq.rfl] at hne
  cases hne

theorem regrowthRule_ofLeaf {rule text : String} :
    grammar.regrowthRule (.ofLeaf kind text) = .ok rule ↔
      grammar.vocabulary.regrowthRule (.ofLeaf kind text) = .ok rule := by
  show (grammar.vocabulary.regrowthRule (.ofLeaf kind text)).mapError _ = .ok rule ↔ _
  cases grammar.vocabulary.regrowthRule (.ofLeaf kind text) <;> simp [Except.mapError]

/-- Under a faithful vocabulary, what is built from a word is regrown as that word. -/
theorem Builds.regrowsAs (hvalid : grammar.validate = .ok ())
    (hfaithful : grammar.vocabulary.Faithful) {leaf : Tree} (h : grammar.Builds name leaf) :
    grammar.RegrowsAs name leaf := by
  have hweighed := weighed_of_validate hvalid
  obtain ⟨hname, kind, text, part, hparts, hnames, rfl⟩ := h.exists_names hweighed
  have hvalid := validate_eq_ok_iff.mp hvalid
  obtain ⟨found, hfound, hparts⟩ := Option.bind_eq_some_iff.mp hparts
  obtain ⟨word, hword, hshape⟩ := hnames
  rw [lookup_eq_ok] at hword
  obtain ⟨rule, offered, hregrowth, hoffered, hkeys, hlone⟩ :=
    hvalid.lone hword hshape (hvalid.usable hfound hparts)
  refine ⟨rule, offered, regrowthRule_ofLeaf.mpr
    (hfaithful name word kind rule hword hname hshape hregrowth text), hoffered, hkeys, fun index =>
    ⟨fun supply => hlone.exists_simulate hname index, fun trace htrace => ?_⟩⟩
  obtain ⟨way, halong, hgrown⟩ := exists_grown_of_obtained hweighed htrace
  obtain ⟨hleaf, weights, hvisit⟩ := hlone.leaf_of_grown hgrown
  exact ⟨hleaf, at?_of_wordVisit halong hvisit⟩

/-! ### A grammar of one word -/

/-- The grammar of one rule, which offers one word for leaves with one text. -/
def ofWord (vocabulary : Vocabulary) (rule name : String) : Grammar ℚ where
  rules := .ofList [(rule, .ofList [(name, [])])]
  wordWeights := .ofList [(rule, .ofList [(name, 1)])]
  textWeights := .ofList [(name, .ofList [("", 1)])]
  root := rule
  vocabulary

theorem distributes_one (name : String) :
    Distributes (Table.ofList [(name, (1 : ℚ))]).values := by
  have hvalues : (Table.ofList [(name, (1 : ℚ))]).values = [1] := rfl
  rw [hvalues]
  exact ⟨by simp, by simp, by decide +kernel⟩

theorem valid_ofWord {vocabulary : Vocabulary} {word : Word}
    (hword : vocabulary.words.get? name = some word) (hshape : word.shape = .leaf kind)
    (hregrowth : word.regrowth = some rule) : (ofWord vocabulary rule name).Valid where
  root := Table.get?_singleton_isSome.mpr rfl
  weighed hoffered := by
    obtain ⟨rfl, rfl⟩ := Table.get?_singleton.mp hoffered
    refine ⟨_, Table.get?_singleton.mpr ⟨rfl, rfl⟩, fun other => ?_, distributes_one name⟩
    rw [Bool.eq_iff_iff, Table.get?_singleton_isSome, Table.get?_singleton_isSome]
  usable hoffered hparts := by
    obtain ⟨rfl, rfl⟩ := Table.get?_singleton.mp hoffered
    obtain ⟨rfl, rfl⟩ := Table.get?_singleton.mp hparts
    exact .leaf hword (by rw [hshape]; rfl) (Table.get?_singleton.mpr ⟨rfl, rfl⟩) hregrowth
      (Table.get?_singleton.mpr ⟨rfl, rfl⟩) fun other => Table.get?_singleton_isSome
  known hweights := by
    obtain ⟨rfl, rfl⟩ := Table.get?_singleton.mp hweights
    exact Table.get?_singleton_isSome.mpr rfl
  texts hweights := by
    obtain ⟨rfl, rfl⟩ := Table.get?_singleton.mp hweights
    exact distributes_one ""

/-- A grammar of one word builds a leaf of that word. -/
theorem exists_builds_ofWord {vocabulary : Vocabulary} {word : Word}
    (hword : vocabulary.words.get? name = some word) (hname : name ≠ "node_type")
    (hshape : word.shape = .leaf kind) (hregrowth : word.regrowth = some rule) :
    ∃ text, (ofWord vocabulary rule name).Builds name (.ofLeaf kind text) := by
  have hvalid := valid_ofWord hword hshape hregrowth
  have husable := hvalid.usable (Table.get?_singleton.mpr ⟨rfl, rfl⟩)
    (Table.get?_singleton.mpr ⟨rfl, rfl⟩)
  obtain ⟨_, offered, hrule, -, -, hlone⟩ := hvalid.lone hword hshape husable
  obtain rfl := Option.some.inj (hregrowth.symm.trans hrule)
  have hdraws : UnitDraws (⟨[0, 0], []⟩ : Supply ℚ).draws := by decide +kernel
  obtain ⟨trace, rest, htrace⟩ := hlone.exists_simulate hname 1 hdraws le_rfl
  have hobtained := Program.Obtained.simulate hdraws htrace
  obtain ⟨way, halong, hgrown⟩ :=
    exists_grown_of_obtained (weighed_of_validate (validate_eq_ok_iff.mpr hvalid)) hobtained
  obtain ⟨hleaf, weights, hvisit⟩ := hlone.leaf_of_grown hgrown
  obtain ⟨_, _, _, _, text, -, -, heq, -⟩ := hgrown.exists_leaf (Tree.follow?_nil _) hleaf
  exact ⟨text, 1, trace, [], kind, le_rfl, hobtained, by rw [Tree.follow?_nil, heq], rfl,
    at?_of_wordVisit halong hvisit⟩

/-- **Leaves are regrown as what they are exactly under the faithful vocabularies.**  Under every
grammar that passes its check, each leaf with a text that a run of growth from the root rule builds
from a word is regrown under a rule of the grammar for that word alone, and so as a leaf of that
word: for the vocabularies in which no second word for a variant has a regrowth rule of its own, and
for no others. -/
theorem regrows_as_iff (vocabulary : Vocabulary) :
    (∀ grammar : Grammar ℚ, grammar.vocabulary = vocabulary → grammar.validate = .ok () →
      ∀ name leaf, grammar.Builds name leaf → grammar.RegrowsAs name leaf) ↔
      vocabulary.Faithful := by
  constructor
  · intro hregrows name word kind rule hword hname hshape hregrowth text
    obtain ⟨built, hbuilt⟩ := exists_builds_ofWord hword hname hshape hregrowth
    obtain ⟨regrown, offered, hrule, hoffered, -⟩ := hregrows _ rfl
      (validate_eq_ok_iff.mpr (valid_ofWord hword hshape hregrowth)) name _ hbuilt
    -- the grammar has no other rule under which the leaf could be regrown
    obtain ⟨rfl, -⟩ := Table.get?_singleton.mp hoffered
    exact regrowthRule_ofLeaf.mp hrule
  · rintro hfaithful grammar rfl hvalid name leaf hbuilt
    exact hbuilt.regrowsAs hvalid hfaithful

/-- Two words for zones, each with a rule of its own. -/
def twins : Vocabulary :=
  .ofWords [⟨"Zone", .leaf .zone, some "ZONE"⟩, ⟨"Area", .leaf .zone, some "AREA"⟩]

/-- The standard vocabulary is faithful; with twins, some grammar that passes its check builds a
leaf from a word and does not regrow it as that word. -/
theorem regrows_as_iff_twins :
    Vocabulary.standard.Faithful ∧ ∃ (grammar : Grammar ℚ) (name : String) (leaf : Tree),
      grammar.vocabulary = twins ∧ grammar.validate = .ok () ∧ grammar.Builds name leaf ∧
      ¬ grammar.RegrowsAs name leaf := by
  constructor
  · intro name word kind rule hword _ hshape hregrowth text
    obtain ⟨hwordOf, -⟩ := Vocabulary.wordOf_of_lookup (lookup_eq_ok.mpr hword)
      (show (Tree.ofLeaf kind text).shape = word.shape from hshape.symm)
    exact Except.bind_eq_ok_iff.mpr ⟨word, hwordOf, by rw [hregrowth]; rfl⟩
  · have hunfaithful : ¬ twins.Faithful := by
      intro h
      have hrule := h "Area" _ .zone "AREA" (show twins.words.get? "Area" = some
        ⟨"Area", .leaf .zone, some "AREA"⟩ by decide) (by decide) rfl rfl ""
      revert hrule
      decide
    rw [← regrows_as_iff] at hunfaithful
    push Not at hunfaithful
    obtain ⟨grammar, hvocabulary, hvalid, name, leaf, hbuilt, hregrown⟩ := hunfaithful
    exact ⟨grammar, name, leaf, hvocabulary, hvalid, hbuilt, hregrown⟩

end Grammar

end Deontic
