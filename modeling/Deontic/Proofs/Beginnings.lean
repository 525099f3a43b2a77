import Deontic.Proofs.Addressing
import Deontic.Proofs.Growth
import Deontic.Proofs.Validity

/-! Growths that have begun.  `Begun grammar index rule way address dist` says that a growth from a
rule makes the choices of `way` and comes to the choice at `address`.  Like complete derivations,
beginnings do not depend on the number of nested calls as long as it exceeds the number of choices
(`Begun.of_reaches`, `Begun.reaches`).  No choice of a growth is made at one address twice
(`Grown.distinct`, `Begun.distinct`). -/

namespace Deontic

namespace Sampler

variable {P α β : Type} {way : Way P} {address : Path} {dist : Distribution P}

/-- A choice that a sequence comes to is one of its first part, or one of the rest. -/
theorem Reaches.of_bind_choose {s : Sampler P α} {f : α → Sampler P β}
    {next : Value → Sampler P β} (h : Reaches (s.bind f) way (.choose address dist next)) :
    (∃ next', Reaches s way (.choose address dist next')) ∨
      ∃ a first second, way = first ++ second ∧ Follows s first a ∧
        Reaches (f a) second (.choose address dist next) := by
  rcases h.of_bind with ⟨s', hs, ht⟩ | h
  · cases s' with
    | pure a => exact .inr ⟨a, way, [], (List.append_nil _).symm, hs, ht ▸ .refl _⟩
    | fail => cases ht
    | note => cases ht
    | choose =>
      cases ht
      exact .inl ⟨_, hs⟩
  · exact .inr h

theorem Reaches.of_under_choose {s : Sampler P α} {key : Value} {next : Value → Sampler P α}
    (h : Reaches (s.under key) way (.choose address dist next)) :
    ∃ inner place next', way = Way.under key inner ∧ address = key :: place ∧
      Reaches s inner (.choose place dist next') := by
  obtain ⟨inner, s', hway, ht, hs⟩ := h.of_under
  cases s' with
  | pure => cases ht
  | fail => cases ht
  | note => cases ht
  | choose =>
    cases ht
    exact ⟨inner, _, _, hway, rfl, hs⟩

theorem not_reaches_ofExcept {result : Except Fault α} {next : Value → Sampler P α} :
    ¬ Reaches (ofExcept result) way (.choose address dist next) := by
  cases result with
  | error => exact nofun
  | ok => exact nofun

theorem reaches_sample {key : Value} {d : Distribution P} {next : Value → Sampler P Value}
    (h : Reaches (sample key d) way (.choose address dist next)) :
    way = [] ∧ address = [key] ∧ dist = d := by
  cases h with
  | refl => exact ⟨rfl, rfl, rfl⟩
  | choose h => cases h

end Sampler

namespace Grammar

variable {P : Type} {grammar : Grammar P}

theorem not_reaches_entry {ν : Type} {table : Table String ν} {name : String} {way : Way P}
    {address : Path} {dist : Distribution P} {next : Value → Sampler P ν} :
    ¬ (entry table name).Reaches way (.choose address dist next) := by
  rw [entry]
  intro h
  cases hfound : table.get? name with
  | none => rw [hfound] at h; cases h
  | some => rw [hfound] at h; cases h

theorem reaches_chooseWord {index : Int} {rule : String} {way : Way P} {address : Path}
    {dist : Distribution P} {next : Value → Sampler P String}
    (h : (chooseWord grammar index rule).Reaches way (.choose address dist next)) :
    ∃ weights, grammar.wordWeights.get? rule = some weights ∧ way = [] ∧
      address = [key index "node_type"] ∧ dist = .ofTexts weights := by
  rcases Sampler.Reaches.of_bind_choose h with ⟨_, hentry⟩ | ⟨weights, _, _, rfl, hentry, hrest⟩
  · exact (not_reaches_entry hentry).elim
  · obtain ⟨rfl, hweights⟩ := follows_entry.mp hentry
    rcases Sampler.Reaches.of_bind_choose hrest with ⟨_, hchosen⟩ | ⟨chosen, _, _, rfl, -, hword⟩
    · obtain ⟨rfl, rfl, rfl⟩ := Sampler.reaches_sample hchosen
      exact ⟨weights, hweights, rfl, rfl, rfl⟩
    · cases htext : chosen.text? with
      | none => rw [htext] at hword; cases hword
      | some => rw [htext] at hword; cases hword

theorem reaches_growLeaf {index : Int} {word : String} {way : Way P} {address : Path}
    {dist : Distribution P} {next : Value → Sampler P Tree}
    (h : (grammar.growLeaf index word).Reaches way (.choose address dist next)) :
    ∃ texts, grammar.textWeights.get? word = some texts ∧ way = [] ∧
      address = [key index word] ∧ dist = .ofTexts texts := by
  rw [growLeaf] at h
  cases htexts : grammar.textWeights.get? word with
  | none => rw [htexts] at h; cases h
  | some texts =>
    rw [htexts] at h
    rcases Sampler.Reaches.of_bind_choose h with ⟨_, hchosen⟩ | ⟨chosen, _, _, rfl, -, hbuilt⟩
    · obtain ⟨rfl, rfl, rfl⟩ := Sampler.reaches_sample hchosen
      exact ⟨texts, rfl, rfl, rfl, rfl⟩
    · cases htext : chosen.text? with
      | none => rw [htext] at hbuilt; cases hbuilt
      | some =>
        rw [htext] at hbuilt
        exact (Sampler.not_reaches_ofExcept hbuilt).elim

/-- Growths that come to a choice. -/
inductive Begun (grammar : Grammar P) :
    Int → String → Way P → Path → Distribution P → Prop
  | word {index : Int} {rule : String} {weights : Table String P}
      (hweights : grammar.wordWeights.get? rule = some weights) :
      Begun grammar index rule [] [key index "node_type"] (.ofTexts weights)
  | text {index : Int} {rule word : String} {weights texts : Table String P}
      (hweights : grammar.wordWeights.get? rule = some weights)
      (hparts : grammar.parts? rule word = some [])
      (htexts : grammar.textWeights.get? word = some texts) :
      Begun grammar index rule [wordVisit index weights word] [key index word] (.ofTexts texts)
  | single {index : Int} {rule word part : String} {weights : Table String P} {way : Way P}
      {address : Path} {dist : Distribution P}
      (hweights : grammar.wordWeights.get? rule = some weights)
      (hparts : grammar.parts? rule word = some [part])
      (hleft : Begun grammar (Tree.leftOf index) part way address dist) :
      Begun grammar index rule (wordVisit index weights word :: way) address dist
  | first {index : Int} {rule word first second : String} {weights : Table String P} {way : Way P}
      {address : Path} {dist : Distribution P}
      (hweights : grammar.wordWeights.get? rule = some weights)
      (hparts : grammar.parts? rule word = some [first, second])
      (hleft : Begun grammar (Tree.leftOf index) first way address dist) :
      Begun grammar index rule (wordVisit index weights word :: way) address dist
  | second {index : Int} {rule word first second : String} {weights : Table String P}
      {leftWay way : Way P} {left : Tree} {address : Path} {dist : Distribution P}
      (hweights : grammar.wordWeights.get? rule = some weights)
      (hparts : grammar.parts? rule word = some [first, second])
      (hleft : Grown grammar (Tree.leftOf index) first leftWay left)
      (hright : Begun grammar (Tree.rightOf index) second way address dist) :
      Begun grammar index rule (wordVisit index weights word :: (leftWay ++ way)) address dist

theorem Begun.of_reaches {calls : Nat} {index : Int} {rule : String} {way : Way P} {address : Path}
    {dist : Distribution P} {next : Value → Sampler P Tree}
    (h : (grammar.grow calls index rule).Reaches way (.choose address dist next)) :
    Begun grammar index rule way address dist := by
  induction calls generalizing index rule way next with
  | zero => cases h
  | succ calls ih =>
    rw [grow_succ] at h
    rcases Sampler.Reaches.of_bind_choose h with ⟨_, hword⟩ | ⟨word, _, _, rfl, hword, hrest⟩
    · obtain ⟨weights, hweights, rfl, rfl, rfl⟩ := reaches_chooseWord hword
      exact .word hweights
    obtain ⟨weights, hweights, rfl⟩ := follows_chooseWord.mp hword
    rcases Sampler.Reaches.of_bind_choose hrest with ⟨_, hentry⟩ |
      ⟨offered, _, _, rfl, hentry, hrest'⟩
    · exact (not_reaches_entry hentry).elim
    obtain ⟨rfl, hoffered⟩ := follows_entry.mp hentry
    rcases Sampler.Reaches.of_bind_choose hrest' with ⟨_, hentry'⟩ |
      ⟨parts, _, _, rfl, hentry', hgrown⟩
    · exact (not_reaches_entry hentry').elim
    obtain ⟨rfl, hfound⟩ := follows_entry.mp hentry'
    have hparts : grammar.parts? rule word = some parts := by
      rw [parts?, hoffered]
      exact hfound
    rcases parts with _ | ⟨first, _ | ⟨second, _ | ⟨_, _⟩⟩⟩
    · obtain ⟨texts, htexts, rfl, rfl, rfl⟩ := reaches_growLeaf hgrown
      exact .text hweights hparts htexts
    · rcases Sampler.Reaches.of_bind_choose hgrown with ⟨_, hleft⟩ | ⟨left, _, _, rfl, -, hlast⟩
      · exact .single hweights hparts (ih hleft)
      · exact (Sampler.not_reaches_ofExcept hlast).elim
    · rcases Sampler.Reaches.of_bind_choose hgrown with ⟨_, hleft⟩ |
        ⟨left, _, _, rfl, hleft, hothers⟩
      · exact .first hweights hparts (ih hleft)
      rcases Sampler.Reaches.of_bind_choose hothers with ⟨_, hright⟩ | ⟨right, _, _, rfl, -, hlast⟩
      · have hsecond := Begun.second hweights hparts (.of_follows hleft) (ih hright)
        exact hsecond
      · exact (Sampler.not_reaches_ofExcept hlast).elim
    · cases hgrown

/-- A growth whose word is chosen goes on with the parts of the word. -/
theorem reaches_growParts (index : Int) {rule word : String} {weights : Table String P}
    {parts : List String} (hweights : grammar.wordWeights.get? rule = some weights)
    (hparts : grammar.parts? rule word = some parts) (calls : Nat) :
    (grammar.grow (calls + 1) index rule).Reaches [wordVisit index weights word]
      (grammar.growParts calls index word parts) := by
  obtain ⟨offered, hoffered, hfound⟩ := Option.bind_eq_some_iff.mp hparts
  have hrest : ((entry grammar.rules rule).bind fun offered =>
      (entry offered word).bind fun parts => grammar.growParts calls index word parts) =
        grammar.growParts calls index word parts := by
    rw [entry, hoffered, Sampler.bind, entry, hfound, Sampler.bind]
  rw [grow_succ, ← hrest]
  exact Sampler.Reaches.bind (follows_chooseWord.mpr ⟨weights, hweights, rfl⟩) _

/-- A beginning is reached by a growth that may nest more calls than there are choices. -/
theorem Begun.reaches {calls : Nat} {index : Int} {rule : String} {way : Way P} {address : Path}
    {dist : Distribution P} (h : Begun grammar index rule way address dist)
    (hcalls : way.length < calls) :
    ∃ next, (grammar.grow calls index rule).Reaches way (.choose address dist next) := by
  induction h generalizing calls with
  | word hweights =>
    obtain ⟨calls, rfl⟩ := Nat.exists_eq_succ_of_ne_zero (Nat.ne_of_gt hcalls)
    rw [Nat.succ_eq_add_one, grow_succ, chooseWord, entry, hweights]
    exact ⟨_, .refl _⟩
  | @text index rule word weights texts hweights hparts htexts =>
    obtain ⟨calls, rfl⟩ := Nat.exists_eq_succ_of_ne_zero (Nat.ne_of_gt (Nat.zero_lt_of_lt hcalls))
    have hleaf := reaches_growParts index hweights hparts calls
    rw [growParts, growLeaf, htexts] at hleaf
    exact ⟨_, hleaf⟩
  | single hweights hparts _ ih =>
    obtain ⟨calls, rfl⟩ := Nat.exists_eq_succ_of_ne_zero (Nat.ne_of_gt (Nat.zero_lt_of_lt hcalls))
    obtain ⟨next, hleft⟩ := ih (show _ < calls from Nat.lt_of_succ_lt_succ hcalls)
    exact ⟨_, (reaches_growParts _ hweights hparts calls).trans (hleft.bind _)⟩
  | first hweights hparts _ ih =>
    obtain ⟨calls, rfl⟩ := Nat.exists_eq_succ_of_ne_zero (Nat.ne_of_gt (Nat.zero_lt_of_lt hcalls))
    obtain ⟨next, hleft⟩ := ih (show _ < calls from Nat.lt_of_succ_lt_succ hcalls)
    exact ⟨_, (reaches_growParts _ hweights hparts calls).trans (hleft.bind _)⟩
  | second hweights hparts hleft _ ih =>
    obtain ⟨calls, rfl⟩ := Nat.exists_eq_succ_of_ne_zero (Nat.ne_of_gt (Nat.zero_lt_of_lt hcalls))
    simp only [List.length_cons, List.length_append] at hcalls
    obtain ⟨next, hright⟩ := ih (show _ < calls by omega)
    have hgrown := hleft.follows (show _ ≤ calls by omega)
    exact ⟨_, (reaches_growParts _ hweights hparts calls).trans
      ((Sampler.Reaches.bind hgrown _).trans (hright.bind _))⟩

/-! ### Different addresses -/

theorem key_beq_key {i j : Int} {s t : String} : (key i s == key j t) = true ↔ i = j ∧ s = t := by
  rw [key, key, Value.pair_beq_pair, Value.int_beq_int]
  constructor
  · rintro ⟨rfl, htext⟩
    exact ⟨rfl, (Value.text.inj (Value.text_beq htext)).symm⟩
  · rintro ⟨rfl, rfl⟩
    exact ⟨rfl, BEq.rfl⟩

theorem keyed_ne {i j : Int} {s t : String} (h : i ≠ j ∨ s ≠ t) :
    (([key i s] : Path) == [key j t]) = false := by
  rw [Bool.eq_false_iff]
  intro heq
  obtain ⟨hindex, hname⟩ := key_beq_key.mp (Bool.and_eq_true_iff.mp heq).1
  exact h.elim (fun hne => hne hindex) fun hne => hne hname

/-- All addresses are those of choices for positions in the tree at an index. -/
def Within (index : Int) (addresses : List Path) : Prop :=
  ∀ address ∈ addresses, ∃ j name, Tree.Below index j ∧ address = [key j name]

theorem Within.address_ne_nil {index : Int} {way : Way P} (h : Within index way.addresses) :
    ∀ visit ∈ way, visit.address ≠ [] := by
  intro visit hvisit
  obtain ⟨_, _, -, haddress⟩ := h visit.address (List.mem_map_of_mem hvisit)
  rw [haddress]
  exact List.cons_ne_nil _ _

theorem within_nil (index : Int) : Within index [] := nofun

theorem within_node {index : Int} {lefts rights : List Path}
    (hleft : Within (Tree.leftOf index) lefts) (hright : Within (Tree.rightOf index) rights)
    (name : String) : Within index ([key index name] :: (lefts ++ rights)) := by
  refine List.forall_mem_cons.mpr ⟨⟨index, name, ⟨[], rfl⟩, rfl⟩, fun address haddress => ?_⟩
  rcases List.mem_append.mp haddress with haddress | haddress
  · obtain ⟨j, name, ⟨steps, rfl⟩, rfl⟩ := hleft address haddress
    exact ⟨_, name, ⟨.left :: steps, rfl⟩, rfl⟩
  · obtain ⟨j, name, ⟨steps, rfl⟩, rfl⟩ := hright address haddress
    exact ⟨_, name, ⟨.right :: steps, rfl⟩, rfl⟩

theorem distinct_node {index : Int} (hindex : 1 ≤ index) {lefts rights : List Path}
    (hleft : Within (Tree.leftOf index) lefts) (hright : Within (Tree.rightOf index) rights)
    (hlefts : lefts.Pairwise fun a b => (a == b) = false)
    (hrights : rights.Pairwise fun a b => (a == b) = false) (name : String) :
    ([key index name] :: (lefts ++ rights)).Pairwise fun a b => (a == b) = false := by
  refine List.pairwise_cons.mpr ⟨fun address haddress => ?_,
    List.pairwise_append.mpr ⟨hlefts, hrights, fun a ha b hb => ?_⟩⟩
  · rcases List.mem_append.mp haddress with haddress | haddress
    · obtain ⟨j, _, hj, rfl⟩ := hleft address haddress
      exact keyed_ne (.inl (Tree.not_below_both hindex hj).1.symm)
    · obtain ⟨j, _, hj, rfl⟩ := hright address haddress
      exact keyed_ne (.inl (Tree.ne_of_below_right hindex hj).symm)
  · obtain ⟨i, _, hi, rfl⟩ := hleft a ha
    obtain ⟨j, _, hj, rfl⟩ := hright b hb
    refine keyed_ne (.inl ?_)
    rintro rfl
    exact (Tree.not_below_both hindex hi).2 hj

/-- No word is the name under which words are chosen. -/
def Distinguished (grammar : Grammar P) : Prop :=
  ∀ rule word parts, grammar.parts? rule word = some parts → word ≠ "node_type"

theorem distinguished_of_validate {grammar : Grammar ℚ} (h : grammar.validate = .ok ())
    (hstandard : grammar.vocabulary = .standard) : grammar.Distinguished := by
  rintro rule word parts hparts rfl
  obtain ⟨offered, hrule, hword⟩ := Option.bind_eq_some_iff.mp hparts
  obtain ⟨found, hfound⟩ := lookup_of_validate h hrule hword
  rw [hstandard] at hfound
  cases hfound

/-- On the way no leaf is grown from a word that is the name under which words are chosen. -/
def Clear (grammar : Grammar P) (way : Way P) : Prop :=
  ∀ rule index weights, grammar.parts? rule "node_type" = some [] →
    grammar.wordWeights.get? rule = some weights → wordVisit index weights "node_type" ∉ way

theorem Clear.mono {way part : Way P} (h : grammar.Clear way) (hpart : part ⊆ way) :
    grammar.Clear part :=
  fun rule index weights hparts hweights hvisit =>
    h rule index weights hparts hweights (hpart hvisit)

theorem Distinguished.clear (h : grammar.Distinguished) (way : Way P) : grammar.Clear way :=
  fun rule _ _ hparts _ _ => h rule _ _ hparts rfl

/-- Where a way grows a leaf, the two choices are at different addresses. -/
theorem Clear.leaf_ne {index : Int} {rule word : String} {weights : Table String P} {rest : Way P}
    (h : grammar.Clear (wordVisit index weights word :: rest))
    (hparts : grammar.parts? rule word = some [])
    (hweights : grammar.wordWeights.get? rule = some weights) :
    (([key index "node_type"] : Path) == [key index word]) = false := by
  refine keyed_ne (.inr ?_)
  rintro rfl
  exact h rule index weights hparts hweights List.mem_cons_self

theorem Grown.within {index : Int} {rule : String} {way : Way P} {t : Tree}
    (h : Grown grammar index rule way t) : Within index way.addresses := by
  intro address haddress
  obtain ⟨visit, hvisit, rfl⟩ := List.mem_map.mp haddress
  exact h.exists_key visit hvisit

theorem Grown.distinct_of_clear {index : Int} {rule : String} {way : Way P} {t : Tree}
    (h : Grown grammar index rule way t) (hclear : grammar.Clear way) (hindex : 1 ≤ index) :
    way.Distinct := by
  induction h with
  | leaf hweights hparts =>
    refine List.pairwise_cons.mpr ⟨?_, List.pairwise_singleton _ _⟩
    exact List.forall_mem_singleton.mpr (hclear.leaf_ne hparts hweights)
  | single _ _ hleft _ ih =>
    have hlefts := ih (hclear.mono (List.subset_cons_self _ _)) (by rw [Tree.leftOf]; omega)
    have hrest := distinct_node hindex hleft.within (within_nil _) hlefts .nil "node_type"
    rw [List.append_nil] at hrest
    exact hrest
  | pair _ _ hleft hright _ ihl ihr =>
    have hrest := hclear.mono (List.subset_cons_self _ _)
    have hlefts := ihl (hrest.mono (List.subset_append_left _ _)) (by rw [Tree.leftOf]; omega)
    have hrights := ihr (hrest.mono (List.subset_append_right _ _)) (by rw [Tree.rightOf]; omega)
    rw [Way.Distinct, Way.addresses, List.map_cons, List.map_append]
    exact distinct_node hindex hleft.within hright.within hlefts hrights "node_type"

theorem Grown.distinct {index : Int} {rule : String} {way : Way P} {t : Tree}
    (h : Grown grammar index rule way t) (hnames : grammar.Distinguished) (hindex : 1 ≤ index) :
    way.Distinct :=
  h.distinct_of_clear (hnames.clear way) hindex

theorem Begun.within {index : Int} {rule : String} {way : Way P} {address : Path}
    {dist : Distribution P} (h : Begun grammar index rule way address dist) :
    Within index (way.addresses ++ [address]) := by
  induction h with
  | word => exact within_node (within_nil _) (within_nil _) _
  | text =>
    exact List.forall_mem_cons.mpr ⟨⟨_, _, ⟨[], rfl⟩, rfl⟩,
      List.forall_mem_singleton.mpr ⟨_, _, ⟨[], rfl⟩, rfl⟩⟩
  | single _ _ _ ih | first _ _ _ ih =>
    have hrest := within_node ih (within_nil _) "node_type"
    rw [List.append_nil] at hrest
    exact hrest
  | second _ _ hleft _ ih =>
    have hrest := within_node hleft.within ih "node_type"
    rw [Way.addresses, List.map_cons, List.map_append, List.cons_append, List.append_assoc]
    exact hrest

theorem Begun.distinct_of_clear {index : Int} {rule : String} {way : Way P} {address : Path}
    {dist : Distribution P} (h : Begun grammar index rule way address dist)
    (hclear : grammar.Clear way) (hindex : 1 ≤ index) :
    (way.addresses ++ [address]).Pairwise fun a b => (a == b) = false := by
  induction h with
  | word => exact List.pairwise_singleton _ _
  | text hweights hparts =>
    refine List.pairwise_cons.mpr ⟨?_, List.pairwise_singleton _ _⟩
    exact List.forall_mem_singleton.mpr (hclear.leaf_ne hparts hweights)
  | single _ _ hleft ih | first _ _ hleft ih =>
    have hlefts := ih (hclear.mono (List.subset_cons_self _ _)) (by rw [Tree.leftOf]; omega)
    have hrest := distinct_node hindex hleft.within (within_nil _) hlefts .nil "node_type"
    rw [List.append_nil] at hrest
    exact hrest
  | second _ _ hleft hright ih =>
    have hrest := hclear.mono (List.subset_cons_self _ _)
    have hlefts := hleft.distinct_of_clear (hrest.mono (List.subset_append_left _ _))
      (by rw [Tree.leftOf]; omega)
    have hrights := ih (hrest.mono (List.subset_append_right _ _)) (by rw [Tree.rightOf]; omega)
    rw [Way.addresses, List.map_cons, List.map_append, List.cons_append, List.append_assoc]
    exact distinct_node hindex hleft.within hright.within hlefts hrights "node_type"

theorem Begun.distinct {index : Int} {rule : String} {way : Way P} {address : Path}
    {dist : Distribution P} (h : Begun grammar index rule way address dist)
    (hnames : grammar.Distinguished) (hindex : 1 ≤ index) :
    (way.addresses ++ [address]).Pairwise fun a b => (a == b) = false :=
  h.distinct_of_clear (hnames.clear way) hindex

end Grammar

end Deontic
