import Deontic.Proofs.Programs
import Deontic.Proofs.Surroundings

/-! The trees of a grammar.  `grammar.Derives rule t` says that `t` derives from a rule by words and
texts of positive weight, without a word about choices and positions.  At every position, the trees
that a growth can come to with possible choices are these (`Grown.derives`, `Derives.exists_grown`).
All of them store the right extents. -/

namespace Deontic

/-- Checking the stored extents accepts exactly the sound trees. -/
theorem Tree.checkStored_eq_ok {t : Tree} : t.checkStored = .ok () ↔ t.Sound := by
  induction t with
  | leaf kind text stored =>
    by_cases h : stored = .single
    · subst h
      exact iff_of_true rfl (.leaf kind text)
    · refine iff_of_false (fun hok => ?_) fun hsound => ?_
      · simp [checkStored, Tree.stored, h] at hok
      · cases hsound
        exact h rfl
  | empty stored =>
    by_cases h : stored = .single
    · subst h
      exact iff_of_true rfl .missing
    · refine iff_of_false (fun hok => ?_) fun hsound => ?_
      · simp [checkStored, Tree.stored, h] at hok
      · cases hsound
        exact h rfl
  | branch kind left right stored ihl ihr =>
    rw [checkStored]
    constructor
    · intro h
      obtain ⟨⟨⟩, hleft, h⟩ := Except.bind_eq_ok_iff.mp h
      obtain ⟨⟨⟩, hright, h⟩ := Except.bind_eq_ok_iff.mp h
      dsimp only at h
      split at h
      · next hstored =>
        subst hstored
        exact .branch kind (ihl.mp hleft) (ihr.mp hright)
      · cases h
    · intro h
      cases h with
      | branch _ hleft hright =>
        refine Except.bind_eq_ok_iff.mpr ⟨(), ihl.mpr hleft, ?_⟩
        refine Except.bind_eq_ok_iff.mpr ⟨(), ihr.mpr hright, ?_⟩
        exact if_pos rfl

/-- Sound trees are equal if they compare as equal. -/
theorem Tree.Sound.eq_of_beq {t u : Tree} (ht : t.Sound) (hu : u.Sound) (h : (t == u) = true) :
    t = u := by
  have hsame : t.same u = true := h
  clear h
  induction ht generalizing u with
  | leaf kind text =>
    cases hu with
    | leaf kind' text' =>
      obtain ⟨hkind, htext⟩ := Bool.and_eq_true_iff.mp hsame
      rw [LawfulBEq.eq_of_beq hkind, LawfulBEq.eq_of_beq htext]
    | missing | branch => cases hsame
  | missing =>
    cases hu with
    | missing => rfl
    | leaf | branch => cases hsame
  | branch kind _ _ ihl ihr =>
    cases hu with
    | leaf | missing => cases hsame
    | branch kind' hleft hright =>
      obtain ⟨hparts, -⟩ := Bool.and_eq_true_iff.mp hsame
      obtain ⟨hrest, hrights⟩ := Bool.and_eq_true_iff.mp hparts
      obtain ⟨hkind, hlefts⟩ := Bool.and_eq_true_iff.mp hrest
      rw [LawfulBEq.eq_of_beq hkind, ihl hleft hlefts, ihr hright hrights]

namespace Grammar

/-- A rule gives a word parts and a positive weight. -/
def Offers (grammar : Grammar ℚ) (rule word : String) (parts : List String) : Prop :=
  grammar.parts? rule word = some parts ∧
    ∃ weights p, grammar.wordWeights.get? rule = some weights ∧ weights.get? word = some p ∧ 0 < p

/-- A text has a positive weight among the texts of a word. -/
def Spells (grammar : Grammar ℚ) (word text : String) : Prop :=
  ∃ texts p, grammar.textWeights.get? word = some texts ∧ texts.get? text = some p ∧ 0 < p

/-- Trees that derive from a rule by words and texts of positive weight. -/
inductive Derives (grammar : Grammar ℚ) : String → Tree → Prop
  | leaf {rule word text : String} {kind : LeafKind} (hoffers : grammar.Offers rule word [])
      (hnames : grammar.vocabulary.Names word (.leaf kind)) (htext : grammar.Spells word text) :
      Derives grammar rule (.ofLeaf kind text)
  | single {rule word part : String} {kind : BranchKind} {left : Tree}
      (hoffers : grammar.Offers rule word [part])
      (hnames : grammar.vocabulary.Names word (.branch kind)) (hleft : Derives grammar part left) :
      Derives grammar rule (.ofBranch kind left .missing)
  | pair {rule word first second : String} {kind : BranchKind} {left right : Tree}
      (hoffers : grammar.Offers rule word [first, second])
      (hnames : grammar.vocabulary.Names word (.branch kind)) (hleft : Derives grammar first left)
      (hright : Derives grammar second right) : Derives grammar rule (.ofBranch kind left right)

variable {grammar : Grammar ℚ}

theorem Derives.sound {rule : String} {t : Tree} (h : grammar.Derives rule t) : t.Sound := by
  induction h with
  | leaf => exact .leaf _ _
  | single _ _ _ ih => exact .branch _ ih .missing
  | pair _ _ _ _ ihl ihr => exact .branch _ ihl ihr

theorem possible_wordVisit {index : Int} {weights : Table String ℚ} {word : String} :
    Scale.isImpossible ℚ ((wordVisit index weights word).density : LogWeight) = false ↔
      ∃ p, weights.get? word = some p ∧ 0 < p :=
  Scale.isImpossible_rat.trans Distribution.possible_ofTexts

theorem possible_textVisit {index : Int} {word text : String} {texts : Table String ℚ} :
    Scale.isImpossible ℚ ((textVisit index word texts text).density : LogWeight) = false ↔
      ∃ p, texts.get? text = some p ∧ 0 < p :=
  Scale.isImpossible_rat.trans Distribution.possible_ofTexts

/-- A growth with possible choices comes to a tree that derives from its rule. -/
theorem Grown.derives {index : Int} {rule : String} {way : Way ℚ} {t : Tree}
    (h : Grown grammar index rule way t)
    (hpossible : ∀ visit ∈ way, Scale.isImpossible ℚ (visit.density : LogWeight) = false) :
    grammar.Derives rule t := by
  induction h with
  | leaf hweights hparts htexts hbuilt =>
    obtain ⟨kind, hnames, rfl⟩ := Vocabulary.buildLeaf_eq_ok.mp hbuilt
    obtain ⟨hword, htext⟩ := List.forall_mem_cons.mp hpossible
    obtain ⟨p, hp, hpos⟩ := possible_wordVisit.mp hword
    obtain ⟨q, hq, hpos'⟩ := possible_textVisit.mp (htext _ List.mem_cons_self)
    exact .leaf ⟨hparts, _, p, hweights, hp, hpos⟩ hnames ⟨_, q, htexts, hq, hpos'⟩
  | single hweights hparts _ hbuilt ih =>
    obtain ⟨kind, hnames, rfl⟩ := Vocabulary.buildBranch_eq_ok.mp hbuilt
    obtain ⟨hword, hleft⟩ := List.forall_mem_cons.mp hpossible
    obtain ⟨p, hp, hpos⟩ := possible_wordVisit.mp hword
    exact .single ⟨hparts, _, p, hweights, hp, hpos⟩ hnames (ih hleft)
  | pair hweights hparts _ _ hbuilt ihl ihr =>
    obtain ⟨kind, hnames, rfl⟩ := Vocabulary.buildBranch_eq_ok.mp hbuilt
    obtain ⟨hword, hrest⟩ := List.forall_mem_cons.mp hpossible
    obtain ⟨hleft, hright⟩ := List.forall_mem_append.mp hrest
    obtain ⟨p, hp, hpos⟩ := possible_wordVisit.mp hword
    exact .pair ⟨hparts, _, p, hweights, hp, hpos⟩ hnames (ihl hleft) (ihr hright)

/-- A tree that derives from a rule is grown from it at every position with possible choices. -/
theorem Derives.exists_grown {rule : String} {t : Tree} (h : grammar.Derives rule t) (index : Int) :
    ∃ way : Way ℚ, Grown grammar index rule way t ∧
      ∀ visit ∈ way, Scale.isImpossible ℚ (visit.density : LogWeight) = false := by
  induction h generalizing index with
  | @leaf _ word text _ hoffers hnames htext =>
    obtain ⟨hparts, weights, p, hweights, hp, hpos⟩ := hoffers
    obtain ⟨texts, q, htexts, hq, hpos'⟩ := htext
    refine ⟨_, .leaf hweights hparts htexts (Vocabulary.buildLeaf_eq_ok.mpr ⟨_, hnames, rfl⟩), ?_⟩
    refine List.forall_mem_cons.mpr ⟨possible_wordVisit.mpr ⟨p, hp, hpos⟩, ?_⟩
    exact List.forall_mem_singleton.mpr (possible_textVisit.mpr ⟨q, hq, hpos'⟩)
  | single hoffers hnames _ ih =>
    obtain ⟨hparts, weights, p, hweights, hp, hpos⟩ := hoffers
    obtain ⟨way, hleft, hpossible⟩ := ih (Tree.leftOf index)
    refine ⟨_, .single hweights hparts hleft
      (Vocabulary.buildBranch_eq_ok.mpr ⟨_, hnames, rfl⟩), ?_⟩
    exact List.forall_mem_cons.mpr ⟨possible_wordVisit.mpr ⟨p, hp, hpos⟩, hpossible⟩
  | pair hoffers hnames _ _ ihl ihr =>
    obtain ⟨hparts, weights, p, hweights, hp, hpos⟩ := hoffers
    obtain ⟨leftWay, hleft, hlefts⟩ := ihl (Tree.leftOf index)
    obtain ⟨rightWay, hright, hrights⟩ := ihr (Tree.rightOf index)
    refine ⟨_, .pair hweights hparts hleft hright
      (Vocabulary.buildBranch_eq_ok.mpr ⟨_, hnames, rfl⟩), ?_⟩
    exact List.forall_mem_cons.mpr ⟨possible_wordVisit.mpr ⟨p, hp, hpos⟩,
      List.forall_mem_append.mpr ⟨hlefts, hrights⟩⟩

end Grammar

end Deontic
