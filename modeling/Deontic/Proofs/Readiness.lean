import Deontic.Proofs.Correspondence
import Deontic.Proofs.Lasting

/-! What growth finds in a grammar that passes its check.  Every rule has weights from which a word
can be drawn, every word that is drawn has parts, and these fit what the word stands for
(`Grammar.Ready`, `ready_of_validate`).  So growth under a rule lasts for as many choices as it may
nest calls (`Ready.lasts_grow`), and every tree that derives from a rule can be regrown
(`Ready.exists_regrowth`). -/

namespace Deontic

namespace Distribution

theorem proper_ofTexts {subject : Grammar.Subject} {weights : Table String ℚ}
    (h : Grammar.checkWeights subject weights.values = .ok ()) : (ofTexts weights).Proper := by
  obtain ⟨hnonneg, hsum⟩ := Grammar.checked_of_checkWeights h
  refine ⟨fair_ofTexts fun entry hentry => hnonneg _ (List.mem_map_of_mem hentry), ?_⟩
  have hvalues : (weights.entries.map fun entry => (Value.text entry.1, entry.2)).map Prod.snd =
      weights.values := List.map_map
  rw [hvalues]
  exact hsum

theorem exists_text_of_possible {weights : Table String ℚ} {value : Value}
    (h : (ofTexts weights).logDensity value ≠ (⊥ : LogWeight)) :
    ∃ text, value = .text text ∧ text ∈ weights.keys := by
  have hpos : 0 < (ofTexts weights).density value := Scale.logOf_ne_bot.mp h
  rw [ofTexts, density] at hpos
  cases hfind : (weights.entries.map fun entry => (Value.text entry.1, entry.2)).find?
      fun entry => entry.1 == value with
  | none =>
    rw [hfind] at hpos
    exact (lt_irrefl _ hpos).elim
  | some found =>
    obtain ⟨entry, hentry, rfl⟩ := List.mem_map.mp (List.mem_of_find?_eq_some hfind)
    have heq := List.find?_some (p := fun entry : Value × ℚ => entry.1 == value) hfind
    exact ⟨entry.1, Value.text_beq heq, List.mem_map_of_mem hentry⟩

end Distribution

namespace Grammar

/-- The parts of a word fit what it stands for: none for a leaf that has texts and can be regrown,
one or two rules for a branch. -/
inductive Fits (grammar : Grammar ℚ) (word : String) : List String → Prop
  | leaf {found : Word} {kind : LeafKind} {texts : Table String ℚ} {regrown : String}
      (hfound : grammar.vocabulary.lookup word = .ok found) (hshape : found.shape = .leaf kind)
      (htexts : grammar.textWeights.get? word = some texts)
      (hproper : (Distribution.ofTexts texts).Proper) (hregrowth : found.regrowth = some regrown)
      (hregrown : grammar.rules.contains regrown = true) : Fits grammar word []
  | single {kind : BranchKind} {part : String}
      (hnames : grammar.vocabulary.Names word (.branch kind))
      (hpart : grammar.rules.contains part = true) : Fits grammar word [part]
  | pair {kind : BranchKind} {first second : String}
      (hnames : grammar.vocabulary.Names word (.branch kind))
      (hfirst : grammar.rules.contains first = true)
      (hsecond : grammar.rules.contains second = true) : Fits grammar word [first, second]

/-- Whatever growth under a rule looks up is there. -/
structure Ready (grammar : Grammar ℚ) : Prop where
  standard : grammar.vocabulary = .standard
  root : grammar.rules.contains grammar.root = true
  weights {rule : String} : grammar.rules.contains rule = true →
    ∃ weights, grammar.wordWeights.get? rule = some weights ∧
      (Distribution.ofTexts weights).Proper
  parts {rule word : String} {weights : Table String ℚ} :
    grammar.wordWeights.get? rule = some weights → word ∈ weights.keys →
      ∃ parts, grammar.parts? rule word = some parts
  fits {rule word : String} {parts : List String} :
    grammar.parts? rule word = some parts → grammar.Fits word parts

/-! ### What the check says -/

section Validate

variable {grammar : Grammar ℚ} {rule word : String}

theorem hasRule_eq_ok {known : Bool} : grammar.hasRule rule = .ok known ↔
    grammar.rules.contains rule = known := by
  show Except.ok (grammar.rules.contains rule) = .ok known ↔ _
  rw [Except.ok.injEq]

theorem contains_of_checkParts {parts : List String} (h : grammar.checkParts rule parts = .ok ()) :
    ∀ part ∈ parts, grammar.rules.contains part = true := by
  induction parts with
  | nil => exact nofun
  | cons part rest ih =>
    rw [checkParts] at h
    obtain ⟨known, hknown, h⟩ := Except.bind_eq_ok_iff.mp h
    obtain ⟨hpart, h⟩ := Except.guard_eq_ok_iff.mp h
    rw [hasRule_eq_ok] at hknown
    rw [Bool.not_eq_true', Bool.not_eq_false] at hpart
    exact List.forall_mem_cons.mpr ⟨hknown.trans hpart, ih h⟩

theorem exists_regrowth_of_checkLeaf {found : Word} (h : grammar.checkLeaf found = .ok ()) :
    found.shape.isTerminal = true ∧ grammar.textWeights.contains found.name = true ∧
      ∃ regrown offered, found.regrowth = some regrown ∧ grammar.rules.get? regrown = some offered ∧
        sameNames offered.keys [found.name] = true := by
  obtain ⟨hterminal, h⟩ := Except.guard_eq_ok_iff.mp h
  obtain ⟨htexts, h⟩ := Except.guard_eq_ok_iff.mp h
  rw [Bool.not_eq_true', Bool.not_eq_false] at hterminal htexts
  refine ⟨hterminal, htexts, ?_⟩
  split at h
  · cases h
  · next rule words hregrowth =>
    obtain ⟨regrown, hregrown, hfound⟩ := Option.bind_eq_some_iff.mp hregrowth
    obtain ⟨offered, hoffered, hsame⟩ := Option.map_eq_some_iff.mp hfound
    obtain ⟨rfl, rfl⟩ := Prod.mk.inj hsame
    split at h
    · cases h
    · next hnames =>
      rw [Bool.not_eq_true', Bool.not_eq_false] at hnames
      exact ⟨regrown, offered, hregrown, hoffered, hnames⟩

theorem standard_shape_ne_empty {found : Word} (h : Vocabulary.standard.lookup word = .ok found) :
    found.shape ≠ .empty := by
  rw [Vocabulary.lookup] at h
  split at h
  · next hfound =>
    cases h
    have hall : ∀ entry ∈ Vocabulary.standard.words.entries, entry.2.shape ≠ .empty := by decide
    exact hall _ (Table.mem_of_get?_eq hfound)
  · cases h

/-- What the check of an offered word says. -/
theorem checked_of_checkOffer {parts : List String}
    (h : grammar.checkOffer rule word parts = .ok ()) :
    ∃ found, grammar.vocabulary.lookup word = .ok found ∧ parts.length ≤ 2 ∧
      (∀ part ∈ parts, grammar.rules.contains part = true) ∧
      (if parts.isEmpty then grammar.checkLeaf { found with name := word }
        else if found.shape.isTerminal then throw (.grammar (.leafWithParts word))
        else pure ()) = .ok () := by
  obtain ⟨found, hlookup, h⟩ := Except.bind_eq_ok_iff.mp h
  obtain ⟨hfew, h⟩ := Except.guard_eq_ok_iff.mp h
  obtain ⟨⟨⟩, hchecked, h⟩ := Except.bind_eq_ok_iff.mp h
  refine ⟨found, ?_, not_lt.mp hfew, contains_of_checkParts hchecked, h⟩
  cases hword : grammar.vocabulary.lookup word with
  | error => rw [hword] at hlookup; cases hlookup
  | ok other => rw [hword] at hlookup; cases hlookup; rfl

theorem fits_of_checkOffer (hvalid : grammar.validate = .ok ())
    (hstandard : grammar.vocabulary = .standard) {parts : List String}
    (h : grammar.checkOffer rule word parts = .ok ()) : grammar.Fits word parts := by
  obtain ⟨found, hfound, hfew, hparts, h⟩ := checked_of_checkOffer h
  rcases parts with _ | ⟨first, rest⟩
  · obtain ⟨hterminal, htexts, regrown, offered, hregrowth, hoffered, -⟩ :=
      exists_regrowth_of_checkLeaf h
    have hregrown : grammar.rules.contains regrown = true := by
      rw [Table.contains_eq_isSome_get?, hoffered]
      rfl
    obtain ⟨texts, htexts⟩ := Table.exists_of_contains htexts
    obtain ⟨-, -, hweighed⟩ := checked_of_validate hvalid
    have hproper := Distribution.proper_ofTexts (hweighed _ (Table.mem_of_get?_eq htexts))
    cases hshape : found.shape with
    | leaf kind => exact .leaf hfound hshape htexts hproper hregrowth hregrown
    | empty => exact (standard_shape_ne_empty (hstandard ▸ hfound) hshape).elim
    | branch kind =>
      rw [hshape] at hterminal
      cases hterminal
  · obtain ⟨kind, hshape⟩ : ∃ kind, found.shape = .branch kind := by
      cases hshape : found.shape with
      | branch kind => exact ⟨kind, rfl⟩
      | leaf | empty =>
        rw [hshape] at h
        cases h
    have hnames : grammar.vocabulary.Names word (.branch kind) := ⟨found, hfound, hshape⟩
    rcases rest with _ | ⟨second, _ | ⟨third, rest⟩⟩
    · exact .single hnames (hparts first List.mem_cons_self)
    · exact .pair hnames (hparts first List.mem_cons_self)
        (hparts second (.tail _ List.mem_cons_self))
    · rw [List.length_cons, List.length_cons, List.length_cons] at hfew
      omega

/-- A grammar that passes its check has whatever growth looks up. -/
theorem ready_of_validate (hvalid : grammar.validate = .ok ())
    (hstandard : grammar.vocabulary = .standard) : grammar.Ready where
  standard := hstandard
  root := by
    obtain ⟨known, hknown, h⟩ := Except.bind_eq_ok_iff.mp hvalid
    obtain ⟨hroot, -⟩ := Except.guard_eq_ok_iff.mp h
    rw [hasRule_eq_ok] at hknown
    rw [Bool.not_eq_true', Bool.not_eq_false] at hroot
    exact hknown.trans hroot
  weights hrule := by
    obtain ⟨hrules, -, -⟩ := checked_of_validate hvalid
    obtain ⟨offered, hoffered⟩ := Table.exists_of_contains hrule
    obtain ⟨weights, hweights, -, hchecked, -⟩ :=
      checked_of_checkRule (hrules _ (Table.mem_of_get?_eq hoffered))
    exact ⟨weights, hweights, Distribution.proper_ofTexts hchecked⟩
  parts hweights hword := by
    obtain ⟨offered, hoffered, hnames, -⟩ := exists_offered_of_validate hvalid hweights
    have hall := (Bool.and_eq_true_iff.mp hnames).1
    have hcontains := List.all_eq_true.mp hall _ hword
    rw [Table.contains_keys] at hcontains
    obtain ⟨parts, hparts⟩ := Option.isSome_iff_exists.mp hcontains
    refine ⟨parts, ?_⟩
    rw [parts?, hoffered]
    exact hparts
  fits hparts := by
    obtain ⟨hrules, -, -⟩ := checked_of_validate hvalid
    obtain ⟨offered, hoffered, hparts⟩ := Option.bind_eq_some_iff.mp hparts
    obtain ⟨_, -, -, -, hoffers⟩ := checked_of_checkRule (hrules _ (Table.mem_of_get?_eq hoffered))
    exact fits_of_checkOffer hvalid hstandard (hoffers _ (Table.mem_of_get?_eq hparts))

end Validate

/-! ### Growth -/

theorem lasts_built {result : Except WordFault Tree} {t : Tree} (h : result = .ok t) (n : Nat) :
    (Sampler.ofExcept (result.mapError .vocabulary) : Sampler ℚ Tree).Lasts n := by
  rw [h]
  trivial

namespace Ready

variable {grammar : Grammar ℚ} (h : grammar.Ready)

theorem lasts_growLeaf {index : Int} {word : String} (hword : grammar.Fits word []) (n : Nat) :
    (grammar.growLeaf index word).Lasts n := by
  cases hword with
  | leaf hfound hshape htexts hproper =>
    rw [growLeaf, htexts]
    refine (Sampler.lasts_choice hproper (n := n) fun value hvalue => ?_).mono (Nat.le_succ n)
    obtain ⟨text, rfl, -⟩ := Distribution.exists_text_of_possible hvalue
    exact lasts_built (Vocabulary.buildLeaf_eq_ok.mpr ⟨_, ⟨_, hfound, hshape⟩, rfl⟩) n

include h

/-- Growth under a rule does not fail before it has made as many choices as it may nest calls. -/
theorem lasts_grow (calls : Nat) (index : Int) {rule : String}
    (hrule : grammar.rules.contains rule = true) : (grammar.grow calls index rule).Lasts calls := by
  induction calls generalizing index rule with
  | zero => exact Sampler.lasts_zero _
  | succ calls ih =>
    obtain ⟨weights, hweights, hproper⟩ := h.weights hrule
    rw [grow_succ, chooseWord, entry, hweights]
    refine ⟨hproper, fun value hvalue => ?_⟩
    obtain ⟨word, rfl, hword⟩ := Distribution.exists_text_of_possible hvalue
    obtain ⟨parts, hparts⟩ := h.parts hweights hword
    obtain ⟨offered, hoffered, hfound⟩ := Option.bind_eq_some_iff.mp hparts
    show ((entry grammar.rules rule).bind fun offered => (entry offered word).bind fun parts =>
      grammar.growParts calls index word parts).Lasts calls
    rw [entry, hoffered, Sampler.bind, entry, hfound, Sampler.bind]
    cases h.fits hparts with
    | leaf => exact lasts_growLeaf (h.fits hparts) calls
    | single hnames hpart =>
      refine (ih _ hpart).bind fun way left _ => ?_
      exact lasts_built (Vocabulary.buildBranch_eq_ok.mpr ⟨_, hnames, rfl⟩) calls
    | pair hnames hfirst hsecond =>
      refine (ih _ hfirst).bind fun way left _ => (ih _ hsecond).bind fun way right _ => ?_
      exact lasts_built (Vocabulary.buildBranch_eq_ok.mpr ⟨_, hnames, rfl⟩) calls

/-- Every tree that derives from a rule can be grown again under some rule. -/
theorem exists_regrowth {rule : String} {t : Tree} (ht : grammar.Derives rule t) :
    ∃ regrown, grammar.regrowthRule t = .ok regrown ∧ grammar.rules.contains regrown = true := by
  cases ht with
  | @leaf _ word text kind hoffers hnames =>
    cases h.fits hoffers.1 with
    | @leaf found _ _ regrown hfound hshape _ _ hregrowth hregrown =>
      obtain ⟨other, hother, hkind⟩ := hnames
      obtain rfl := Except.ok.inj (hfound.symm.trans hother)
      rw [h.standard] at hfound
      obtain ⟨hword, -⟩ := Vocabulary.wordOf_of_lookup hfound
        (show (Tree.ofLeaf kind text).shape = found.shape from hkind.symm)
      refine ⟨_, ?_, hregrown⟩
      have hregrowthRule :
          grammar.vocabulary.regrowthRule (Tree.ofLeaf kind text) = .ok regrown := by
        rw [h.standard, Vocabulary.regrowthRule, hword]
        exact Except.bind_eq_ok_iff.mpr ⟨found, rfl, by rw [hregrowth]; rfl⟩
      exact congrArg (Except.mapError Fault.vocabulary) hregrowthRule
  | single | pair => exact ⟨_, rfl, h.root⟩

end Ready

/-- The parts of a tree that derives from a rule derive from some rule, unless they are missing. -/
theorem Derives.exists_part {grammar : Grammar ℚ} {rule : String} {t node : Tree}
    (h : grammar.Derives rule t) {steps : List Tree.Side} (hnode : t.follow? steps = some node)
    (hshape : node.shape ≠ .empty) : ∃ part, grammar.Derives part node := by
  induction steps generalizing rule t with
  | nil =>
    rw [Tree.follow?_nil] at hnode
    obtain rfl := Option.some.inj hnode
    exact ⟨rule, h⟩
  | cons side rest ih =>
    cases h with
    | leaf => cases side <;> cases hnode
    | single _ _ hleft =>
      cases side with
      | left => exact ih hleft hnode
      | right =>
        rcases rest with _ | ⟨side, rest⟩
        · obtain rfl := Option.some.inj hnode
          exact (hshape rfl).elim
        · cases side <;> cases hnode
    | pair _ _ hleft hright =>
      cases side with
      | left => exact ih hleft hnode
      | right => exact ih hright hnode

end Grammar

end Deontic
