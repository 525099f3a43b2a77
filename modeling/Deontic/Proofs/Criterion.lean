import Deontic.Proofs.Readiness

/-! What passes the check of a grammar, said through the look-ups in its tables (`Grammar.Valid`).
Of the order of the entries nothing is left but the order of the weights in their sum. -/

namespace Deontic

theorem Table.contains_of_get? {κ ν : Type} [BEq κ] {t : Table κ ν} {key : κ} {value : ν}
    (h : t.get? key = some value) : t.contains key = true := by
  rw [contains_eq_isSome_get?, h]
  rfl

theorem Table.get?_isSome_iff_mem_keys {κ ν : Type} [BEq κ] [LawfulBEq κ] {t : Table κ ν}
    {key : κ} : (t.get? key).isSome = true ↔ key ∈ t.keys := by
  rw [← contains_keys, List.contains_iff_mem]

namespace Grammar

/-- Weights of which none is negative and that come close to one together. -/
structure Distributes (weights : List ℚ) : Prop where
  nonempty : weights ≠ []
  nonneg : ∀ p ∈ weights, 0 ≤ p
  nearlyOne : Scale.isNearlyOne weights.sum = true

/-- A word may be offered with its parts: a branch with one or two rules, a leaf if it has texts
and some rule offers it alone, under which it is regrown. -/
inductive Usable (grammar : Grammar ℚ) (name : String) : List String → Prop
  | leaf {word : Word} {texts : Table String ℚ} {rule : String}
      {offered : Table String (List String)}
      (hword : grammar.vocabulary.words.get? name = some word)
      (hshape : word.shape.isTerminal = true)
      (htexts : grammar.textWeights.get? name = some texts)
      (hregrowth : word.regrowth = some rule)
      (hoffered : grammar.rules.get? rule = some offered)
      (halone : ∀ other, (offered.get? other).isSome = true ↔ other = name) : Usable grammar name []
  | branch {word : Word} {parts : List String}
      (hword : grammar.vocabulary.words.get? name = some word)
      (hshape : word.shape.isTerminal = false)
      (hnonempty : parts ≠ []) (hfew : parts.length ≤ 2)
      (hparts : ∀ part ∈ parts, (grammar.rules.get? part).isSome = true) :
      Usable grammar name parts

/-- What the check of a grammar asks of the look-ups in its tables. -/
structure Valid (grammar : Grammar ℚ) : Prop where
  root : (grammar.rules.get? grammar.root).isSome = true
  weighed {rule : String} {offered : Table String (List String)} :
    grammar.rules.get? rule = some offered →
      ∃ weights, grammar.wordWeights.get? rule = some weights ∧
        (∀ name, (weights.get? name).isSome = (offered.get? name).isSome) ∧
        Distributes weights.values
  usable {rule name : String} {offered : Table String (List String)} {parts : List String} :
    grammar.rules.get? rule = some offered → offered.get? name = some parts →
      grammar.Usable name parts
  known {rule : String} {weights : Table String ℚ} :
    grammar.wordWeights.get? rule = some weights → (grammar.rules.get? rule).isSome = true
  texts {name : String} {weights : Table String ℚ} :
    grammar.textWeights.get? name = some weights → Distributes weights.values

theorem checkWeights_eq_ok_iff {subject : Subject} {weights : List ℚ} :
    checkWeights subject weights = .ok () ↔ Distributes weights := by
  have hnegative : (weights.any fun p => Scale.lt p (Scale.zero ℚ)) = true ↔
      ¬ ∀ p ∈ weights, 0 ≤ p := by
    rw [List.any_eq_true]
    push Not
    exact exists_congr fun p => and_congr_right fun _ => decide_eq_true_iff
  have htotal : (Scale.exactSum weights : Except NumberFault ℚ) = .ok weights.sum := rfl
  rw [checkWeights, Except.guard_eq_ok_iff, Except.guard_eq_ok_iff, hnegative, not_not,
    List.isEmpty_iff, htotal]
  constructor
  · rintro ⟨hnonempty, hnonneg, h⟩
    obtain ⟨total, ⟨⟩, h⟩ := Except.bind_eq_ok_iff.mp h
    refine ⟨hnonempty, hnonneg, ?_⟩
    by_contra hfar
    rw [Bool.not_eq_true] at hfar
    rw [hfar] at h
    cases h
  · rintro ⟨hnonempty, hnonneg, hnear⟩
    refine ⟨hnonempty, hnonneg, Except.bind_eq_ok_iff.mpr ⟨_, rfl, ?_⟩⟩
    rw [hnear]
    rfl

/-- Weights that form a distribution can be drawn from. -/
theorem Distributes.proper {weights : Table String ℚ} (h : Distributes weights.values) :
    (Distribution.ofTexts weights).Proper :=
  Distribution.proper_ofTexts
    (show checkWeights (.word "") weights.values = .ok () from checkWeights_eq_ok_iff.mpr h)

theorem sameNames_iff {ν μ : Type} {t : Table String ν} {u : Table String μ} :
    sameNames t.keys u.keys = true ↔
      ∀ name, (t.get? name).isSome = (u.get? name).isSome := by
  simp only [sameNames, Bool.and_eq_true, List.all_eq_true, List.contains_iff_mem,
    ← Table.get?_isSome_iff_mem_keys]
  exact ⟨fun h name => Bool.eq_iff_iff.mpr ⟨h.1 name, h.2 name⟩,
    fun h => ⟨fun name => (h name).le, fun name => (h name).ge⟩⟩

theorem sameNames_singleton_iff {ν : Type} {t : Table String ν} {name : String} :
    sameNames t.keys [name] = true ↔ ∀ other, (t.get? other).isSome = true ↔ other = name := by
  simp only [sameNames, Bool.and_eq_true, List.all_eq_true, List.contains_iff_mem,
    ← Table.get?_isSome_iff_mem_keys, List.mem_singleton, forall_eq]
  exact ⟨fun h other => ⟨h.1 other, fun heq => heq ▸ h.2⟩,
    fun h => ⟨fun other => (h other).1, (h name).2 rfl⟩⟩

variable {grammar : Grammar ℚ} {rule name : String}

theorem checkParts_eq_ok_iff {parts : List String} : grammar.checkParts rule parts = .ok () ↔
    ∀ part ∈ parts, (grammar.rules.get? part).isSome = true := by
  simp only [← Table.contains_eq_isSome_get?]
  refine ⟨contains_of_checkParts, fun h => ?_⟩
  induction parts with
  | nil => rfl
  | cons part rest ih =>
    obtain ⟨hpart, hrest⟩ := List.forall_mem_cons.mp h
    rw [checkParts, hasRule_eq_ok.mpr hpart]
    exact ih hrest

theorem checkLeaf_eq_ok_iff {word : Word} : grammar.checkLeaf word = .ok () ↔
    word.shape.isTerminal = true ∧ grammar.textWeights.contains word.name = true ∧
      ∃ regrown offered, word.regrowth = some regrown ∧ grammar.rules.get? regrown = some offered ∧
        sameNames offered.keys [word.name] = true := by
  refine ⟨exists_regrowth_of_checkLeaf, ?_⟩
  rintro ⟨hshape, htexts, regrown, offered, hregrowth, hoffered, hnames⟩
  rw [checkLeaf, Except.guard_eq_ok_iff, Except.guard_eq_ok_iff]
  refine ⟨by rw [hshape]; exact Bool.noConfusion, by rw [htexts]; exact Bool.noConfusion, ?_⟩
  rw [hregrowth, Option.bind_some, hoffered, Option.map_some]
  dsimp only
  rw [hnames]
  rfl

theorem lookup_eq_ok {vocabulary : Vocabulary} {word : Word} :
    (vocabulary.lookup name : Except WordFault Word) = .ok word ↔
      vocabulary.words.get? name = some word := by
  rw [Vocabulary.lookup]
  cases vocabulary.words.get? name <;> simp

theorem usable_of_checkOffer {parts : List String}
    (h : grammar.checkOffer rule name parts = .ok ()) : grammar.Usable name parts := by
  obtain ⟨word, hlookup, hfew, hparts, h⟩ := checked_of_checkOffer h
  rw [lookup_eq_ok] at hlookup
  rcases parts with _ | ⟨first, rest⟩
  · obtain ⟨hshape, htexts, regrown, offered, hregrowth, hoffered, hnames⟩ :=
      checkLeaf_eq_ok_iff.mp h
    obtain ⟨texts, htexts⟩ := Table.exists_of_contains htexts
    exact .leaf hlookup hshape htexts hregrowth hoffered (sameNames_singleton_iff.mp hnames)
  · refine .branch hlookup ?_ (List.cons_ne_nil _ _) hfew fun part hpart => ?_
    · cases hshape : word.shape.isTerminal with
      | false => rfl
      | true =>
        rw [hshape] at h
        cases h
    · rw [← Table.contains_eq_isSome_get?]
      exact hparts part hpart

theorem Usable.checkOffer {parts : List String} (h : grammar.Usable name parts) :
    grammar.checkOffer rule name parts = .ok () := by
  cases h with
  | @leaf word texts regrown offered hword hshape htexts hregrowth hoffered halone =>
    rw [Grammar.checkOffer, lookup_eq_ok.mpr hword]
    exact checkLeaf_eq_ok_iff.mpr ⟨hshape, Table.contains_of_get? htexts, regrown, offered,
      hregrowth, hoffered, sameNames_singleton_iff.mpr halone⟩
  | @branch word _ hword hshape hnonempty hfew hparts =>
    rw [Grammar.checkOffer, lookup_eq_ok.mpr hword]
    refine Except.guard_eq_ok_iff.mpr ⟨not_lt.mpr hfew, Except.bind_eq_ok_iff.mpr
      ⟨(), checkParts_eq_ok_iff.mpr hparts, ?_⟩⟩
    rw [if_neg (by rwa [List.isEmpty_iff]), hshape]
    rfl

theorem checkOffer_eq_ok_iff {parts : List String} :
    grammar.checkOffer rule name parts = .ok () ↔ grammar.Usable name parts :=
  ⟨usable_of_checkOffer, Usable.checkOffer⟩

theorem checkRule_eq_ok_iff {offered : Table String (List String)} :
    grammar.checkRule rule offered = .ok () ↔
      (∃ weights, grammar.wordWeights.get? rule = some weights ∧
        (∀ name, (weights.get? name).isSome = (offered.get? name).isSome) ∧
        Distributes weights.values) ∧
      ∀ name parts, offered.get? name = some parts → grammar.Usable name parts := by
  constructor
  · intro h
    obtain ⟨weights, hweights, hnames, hchecked, hoffers⟩ := checked_of_checkRule h
    exact ⟨⟨weights, hweights, sameNames_iff.mp hnames, checkWeights_eq_ok_iff.mp hchecked⟩,
      fun name parts hparts =>
        checkOffer_eq_ok_iff.mp (hoffers _ (Table.mem_of_get?_eq hparts))⟩
  · rintro ⟨⟨weights, hweights, hnames, hproper⟩, husable⟩
    have hoffers : offered.entries.forM (fun entry => grammar.checkOffer rule entry.1 entry.2) =
        .ok () := Except.forM_eq_ok_iff.mpr fun entry hentry =>
      checkOffer_eq_ok_iff.mpr (husable _ _ (Table.get?_of_mem hentry))
    rw [checkRule, hweights]
    dsimp only
    rw [sameNames_iff.mpr hnames, checkWeights_eq_ok_iff.mpr hproper]
    exact hoffers

/-- **A grammar passes its check exactly if its tables are valid.** -/
theorem validate_eq_ok_iff : grammar.validate = .ok () ↔ grammar.Valid := by
  constructor
  · intro h
    obtain ⟨known, hknown, hrest⟩ := Except.bind_eq_ok_iff.mp h
    obtain ⟨hroot, -⟩ := Except.guard_eq_ok_iff.mp hrest
    obtain ⟨hrules, hweighed, htexts⟩ := checked_of_validate h
    have hrule {rule : String} {offered : Table String (List String)}
        (hoffered : grammar.rules.get? rule = some offered) :=
      checkRule_eq_ok_iff.mp (hrules _ (Table.mem_of_get?_eq hoffered))
    rw [hasRule_eq_ok] at hknown
    rw [Bool.not_eq_true', Bool.not_eq_false] at hroot
    refine ⟨?_, fun hoffered => (hrule hoffered).1,
      fun hoffered hparts => (hrule hoffered).2 _ _ hparts, fun hweights => ?_,
      fun hweights => checkWeights_eq_ok_iff.mp (htexts _ (Table.mem_of_get?_eq hweights))⟩
    · rw [← Table.contains_eq_isSome_get?]
      exact hknown.trans hroot
    · rw [← Table.contains_eq_isSome_get?]
      exact hweighed _ (Table.mem_keys_of_get? hweights)
  · intro h
    have hrules : grammar.rules.entries.forM (fun entry => grammar.checkRule entry.1 entry.2) =
        .ok () := Except.forM_eq_ok_iff.mpr fun entry hentry => checkRule_eq_ok_iff.mpr
      ⟨h.weighed (Table.get?_of_mem hentry),
        fun name parts hparts => h.usable (Table.get?_of_mem hentry) hparts⟩
    have hroot := Table.contains_eq_isSome_get? grammar.rules grammar.root ▸ h.root
    refine Except.bind_eq_ok_iff.mpr ⟨true, hasRule_eq_ok.mpr hroot, ?_⟩
    refine Except.bind_eq_ok_iff.mpr ⟨(), hrules, Except.bind_eq_ok_iff.mpr ⟨(), ?_, ?_⟩⟩
    · refine Except.forM_eq_ok_iff.mpr fun rule hrule => ?_
      obtain ⟨weights, hweights⟩ :=
        Option.isSome_iff_exists.mp (Table.get?_isSome_iff_mem_keys.mpr hrule)
      rw [if_pos (by rw [Table.contains_eq_isSome_get?]; exact h.known hweights)]
    · exact Except.forM_eq_ok_iff.mpr fun entry hentry =>
        checkWeights_eq_ok_iff.mpr (h.texts (Table.get?_of_mem hentry))

end Grammar

end Deontic
