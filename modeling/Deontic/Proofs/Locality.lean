import Deontic.Proofs.Drawing
import Deontic.Proofs.Hosting

/-! What is grown at one position does not depend on what is grown elsewhere.  Two derivations from
one rule that each differ from a third one in a tree of their own, neither tree below the other, can
be merged: a fourth derivation has both differences and no other (`Grown.exists_square`).  The
probabilities of the four are in proportion. -/

namespace Deontic.Grammar

open Deontic.Tree

section Parts

variable {P : Type} {grammar : Grammar P} {index : Int} {rule word : String}
  {weights : Table String P} {way rest : Way P} {t : Tree}

/-- A derivation starts with the word that it has at its position. -/
theorem Grown.exists_rest (h : Grown grammar index rule way t)
    (hweights : grammar.wordWeights.get? rule = some weights)
    (hword : ∀ visit ∈ way, visit.address = [key index "node_type"] → visit.value = .text word) :
    ∃ rest, way = wordVisit index weights word :: rest := by
  obtain ⟨weights', word', _, rest, hweights', -, rfl, -⟩ := h.exists_word
  obtain rfl := Option.some.inj (hweights.symm.trans hweights')
  obtain rfl : word' = word := Value.text.inj (hword _ List.mem_cons_self rfl)
  exact ⟨rest, rfl⟩

theorem Grown.of_no_part (h : Grown grammar index rule (wordVisit index weights word :: rest) t)
    (hparts : grammar.parts? rule word = some []) :
    ∃ texts text, grammar.textWeights.get? word = some texts ∧
      rest = [textVisit index word texts text] := by
  generalize hway : wordVisit index weights word :: rest = way at h
  cases h with
  | leaf _ _ htexts =>
    obtain ⟨hvisit, rfl⟩ := List.cons.inj hway
    obtain rfl := Value.text.inj (congrArg Visit.value hvisit)
    exact ⟨_, _, htexts, rfl⟩
  | single _ hparts' | pair _ hparts' =>
    obtain ⟨hvisit, -⟩ := List.cons.inj hway
    obtain rfl := Value.text.inj (congrArg Visit.value hvisit)
    cases hparts.symm.trans hparts'

theorem Grown.of_one_part {part : String}
    (h : Grown grammar index rule (wordVisit index weights word :: rest) t)
    (hparts : grammar.parts? rule word = some [part]) :
    ∃ left, Grown grammar (leftOf index) part rest left := by
  generalize hway : wordVisit index weights word :: rest = way at h
  cases h with
  | single _ hparts' hleft =>
    obtain ⟨hvisit, rfl⟩ := List.cons.inj hway
    obtain rfl := Value.text.inj (congrArg Visit.value hvisit)
    cases hparts.symm.trans hparts'
    exact ⟨_, hleft⟩
  | leaf _ hparts' | pair _ hparts' =>
    obtain ⟨hvisit, -⟩ := List.cons.inj hway
    obtain rfl := Value.text.inj (congrArg Visit.value hvisit)
    cases hparts.symm.trans hparts'

theorem Grown.of_two_parts {first second : String}
    (h : Grown grammar index rule (wordVisit index weights word :: rest) t)
    (hparts : grammar.parts? rule word = some [first, second]) :
    ∃ leftWay rightWay left right, rest = leftWay ++ rightWay ∧
      Grown grammar (leftOf index) first leftWay left ∧
      Grown grammar (rightOf index) second rightWay right := by
  generalize hway : wordVisit index weights word :: rest = way at h
  cases h with
  | pair _ hparts' hleft hright =>
    obtain ⟨hvisit, rfl⟩ := List.cons.inj hway
    obtain rfl := Value.text.inj (congrArg Visit.value hvisit)
    cases hparts.symm.trans hparts'
    exact ⟨_, _, _, _, rfl, hleft, hright⟩
  | leaf _ hparts' | single _ hparts' =>
    obtain ⟨hvisit, -⟩ := List.cons.inj hway
    obtain rfl := Value.text.inj (congrArg Visit.value hvisit)
    cases hparts.symm.trans hparts'

end Parts

/-! ### Ways that differ in one tree -/

section Outside

variable {P : Type} {grammar : Grammar P} {index i j : Int} {rule : String}
  {way first second : Way P}
  {t u : Tree}

/-- The choices of two ways outside the tree at an index are the same. -/
def SameOutside (index : Int) (first second : Way P) : Prop :=
  ∀ visit : Visit P, Outside index (.text "tree" :: visit.address) →
    (visit ∈ first ↔ visit ∈ second)

namespace SameOutside

theorem refl (index : Int) (way : Way P) : SameOutside index way way := fun _ _ => Iff.rfl

theorem cons (visit : Visit P) (h : SameOutside index first second) :
    SameOutside index (visit :: first) (visit :: second) := fun other hother => by
  rw [List.mem_cons, List.mem_cons, h other hother]

theorem append {first' second' : Way P} (h : SameOutside index first second)
    (h' : SameOutside index first' second') :
    SameOutside index (first ++ first') (second ++ second') := fun visit hvisit => by
  rw [List.mem_append, List.mem_append, h visit hvisit, h' visit hvisit]

end SameOutside

theorem not_outside (h : Below i j) (name : String) : ¬ Outside i [.text "tree", key j name] := by
  intro houtside
  have hdiffers := houtside j name h
  rw [BEq.rfl] at hdiffers
  cases hdiffers

/-- A derivation in the tree at an index has no choices outside. -/
theorem Grown.not_outside (h : Grown grammar index rule way t) (hindex : Below i index) :
    ∀ visit ∈ way, ¬ Outside i (.text "tree" :: visit.address) := by
  intro visit hvisit
  obtain ⟨k, name, hk, haddress⟩ := h.exists_key visit hvisit
  rw [haddress]
  exact Grammar.not_outside (hindex.trans hk) name

theorem Grown.sameOutside (h : Grown grammar index rule first t)
    (h' : Grown grammar index rule second u) (hindex : Below i index) :
    SameOutside i first second := fun visit hvisit =>
  iff_of_false (fun hmem => h.not_outside hindex visit hmem hvisit)
    fun hmem => h'.not_outside hindex visit hmem hvisit

/-- A derivation in the tree at one of two positions that are apart is outside that at the other. -/
theorem Grown.outside (h : Grown grammar index rule way t) (hi : 1 ≤ i) (hj : 1 ≤ j)
    (hij : ¬ Below i j) (hji : ¬ Below j i) (hindex : Below i index) :
    ∀ visit ∈ way, Outside j (.text "tree" :: visit.address) := by
  intro visit hvisit
  obtain ⟨k, name, hk, haddress⟩ := h.exists_key visit hvisit
  rw [haddress]
  exact outside_of_not_below (fun hbelow =>
    (below_or_below hi hj (hindex.trans hk) hbelow).elim hij hji) name

end Outside

/-! ### Squares of ways -/

/-- Four ways: `first` differs from `way` in the tree at `i` and `second` in the tree at `j`, and
`merged` differs from each of these where the other does. -/
structure Square (i j : Int) (way first second merged : Way ℚ) : Prop where
  left : SameOutside i way first
  upper : SameOutside j way second
  lower : SameOutside j first merged
  right : SameOutside i second merged
  weighs : merged.probability * way.probability = first.probability * second.probability

namespace Square

variable {i j : Int} {way first second merged : Way ℚ}

theorem refl (i j : Int) (way : Way ℚ) : Square i j way way way way :=
  ⟨.refl i way, .refl j way, .refl j way, .refl i way, rfl⟩

theorem cons (visit : Visit ℚ) (h : Square i j way first second merged) :
    Square i j (visit :: way) (visit :: first) (visit :: second) (visit :: merged) := by
  refine ⟨h.left.cons visit, h.upper.cons visit, h.lower.cons visit, h.right.cons visit, ?_⟩
  have hcons (rest : Way ℚ) : Way.probability (visit :: rest) =
      visit.dist.density visit.value * rest.probability := by
    rw [Way.probability, List.map_cons, List.prod_cons, Way.probability]
  rw [hcons, hcons, hcons, hcons, mul_mul_mul_comm, h.weighs, mul_mul_mul_comm]

theorem append {way' first' second' merged' : Way ℚ} (h : Square i j way first second merged)
    (h' : Square i j way' first' second' merged') :
    Square i j (way ++ way') (first ++ first') (second ++ second') (merged ++ merged') := by
  refine ⟨h.left.append h'.left, h.upper.append h'.upper, h.lower.append h'.lower,
    h.right.append h'.right, ?_⟩
  rw [Way.probability_append, Way.probability_append, Way.probability_append,
    Way.probability_append, mul_mul_mul_comm, h.weighs, h'.weighs, mul_mul_mul_comm]

/-- Each choice that is merged is one of the two ways. -/
theorem mem_or_mem (h : Square i j way first second merged) {index : Int} (hi : 1 ≤ i) (hj : 1 ≤ j)
    (hij : ¬ Below i j) (hji : ¬ Below j i)
    (hwithin : Within index merged.addresses) {visit : Visit ℚ} (hvisit : visit ∈ merged) :
    visit ∈ first ∨ visit ∈ second := by
  obtain ⟨k, name, -, haddress⟩ := hwithin visit.address (List.mem_map_of_mem hvisit)
  by_cases hk : Below j k
  · right
    refine (h.right visit ?_).mpr hvisit
    rw [haddress]
    exact outside_of_not_below (fun hbelow => (below_or_below hi hj hbelow hk).elim hij hji) name
  · left
    refine (h.lower visit ?_).mpr hvisit
    rw [haddress]
    exact outside_of_not_below hk name

end Square

/-- Outside the tree at an index, a way has given values. -/
def AgreesOutside (index : Int) (values : Path → Option Value) (way : Way ℚ) : Prop :=
  ∀ visit ∈ way, Outside index (.text "tree" :: visit.address) →
    values visit.address = some visit.value

variable {grammar : Grammar ℚ} {values : Path → Option Value} {i j index : Int}
  {rule word : String} {weights : Table String ℚ} {rest way first second : Way ℚ} {t u v : Tree}

/-- A derivation that agrees outside a tree with the word at its position starts with that word. -/
theorem AgreesOutside.exists_rest (h : AgreesOutside i values way)
    (hgrown : Grown grammar index rule way t) (hindex : ¬ Below i index)
    (hweights : grammar.wordWeights.get? rule = some weights)
    (hword : values [key index "node_type"] = some (.text word)) :
    ∃ rest, way = wordVisit index weights word :: rest := by
  refine hgrown.exists_rest hweights fun visit hvisit haddress => ?_
  have hvalue := h visit hvisit (haddress ▸ outside_of_not_below hindex _)
  rw [haddress, hword] at hvalue
  exact (Option.some.inj hvalue).symm

/-- A leaf that agrees outside a tree that it is not in is the same leaf. -/
theorem AgreesOutside.leaf_eq {texts : Table String ℚ} {text : String}
    (h : AgreesOutside i values (wordVisit index weights word :: rest))
    (hgrown : Grown grammar index rule (wordVisit index weights word :: rest) t)
    (hindex : ¬ Below i index) (hparts : grammar.parts? rule word = some [])
    (htexts : grammar.textWeights.get? word = some texts)
    (htext : values [key index word] = some (.text text)) :
    rest = [textVisit index word texts text] := by
  obtain ⟨texts', text', htexts', rfl⟩ := hgrown.of_no_part hparts
  obtain rfl := Option.some.inj (htexts.symm.trans htexts')
  have hvalue := h _ (.tail _ List.mem_cons_self) (outside_of_not_below hindex word)
  obtain rfl : text = text' := Value.text.inj (Option.some.inj (htext.symm.trans hvalue))
  rfl

theorem AgreesOutside.tail {visit : Visit ℚ} (h : AgreesOutside i values (visit :: rest)) :
    AgreesOutside i values rest := (List.forall_mem_cons.mp h).2

section Merging

variable (hi : 1 ≤ i) (hj : 1 ≤ j) (hij : ¬ Below i j) (hji : ¬ Below j i)
include hi hj hij hji

/-- In the tree at one of the positions, only one of two derivations differs from a third one, and
so it is merged with the other already. -/
theorem Grown.exists_square_of (h : Grown grammar index rule way t)
    (hfirst : Grown grammar index rule first u) (hsecond : Grown grammar index rule second v)
    (hway : ∀ visit ∈ way, values visit.address = some visit.value)
    (hagrees : AgreesOutside i values first) (hagrees' : AgreesOutside j values second)
    (houtside : ¬ Below i index → ¬ Below j index →
      ∃ merged s, Grown grammar index rule merged s ∧ Square i j way first second merged) :
    ∃ merged s, Grown grammar index rule merged s ∧ Square i j way first second merged := by
  by_cases hinside : Below i index
  · have hsame := fun visit hvisit =>
      hagrees' visit hvisit (hsecond.outside hi hj hij hji hinside visit hvisit)
    obtain ⟨rfl, -⟩ := h.unique hsecond values hway hsame
    have hleft := h.sameOutside hfirst hinside
    exact ⟨first, u, hfirst, hleft, .refl j way, .refl j first, hleft, rfl⟩
  by_cases hinside' : Below j index
  · have hsame := fun visit hvisit =>
      hagrees visit hvisit (hfirst.outside hj hi hji hij hinside' visit hvisit)
    obtain ⟨rfl, -⟩ := h.unique hfirst values hway hsame
    have hupper := h.sameOutside hsecond hinside'
    exact ⟨second, v, hsecond, .refl i way, hupper, hupper, .refl i second, mul_comm _ _⟩
  exact houtside hinside hinside'

/-- Derivations from one rule that differ from a third one in trees of their own can be merged. -/
theorem Grown.exists_square (h : Grown grammar index rule way t)
    (hfirst : Grown grammar index rule first u) (hsecond : Grown grammar index rule second v)
    (hway : ∀ visit ∈ way, values visit.address = some visit.value)
    (hagrees : AgreesOutside i values first) (hagrees' : AgreesOutside j values second) :
    ∃ merged s, Grown grammar index rule merged s ∧ Square i j way first second merged := by
  -- outside of both trees, all three derivations start with the same word
  induction h generalizing first second u v with
  | @leaf index rule word text weights texts t hweights hparts htexts hbuilt =>
    have hgrown : Grown grammar index rule _ t := .leaf hweights hparts htexts hbuilt
    refine hgrown.exists_square_of hi hj hij hji hfirst hsecond hway hagrees hagrees'
      fun hinside hinside' => ?_
    obtain ⟨hword, htext⟩ := List.forall_mem_cons.mp hway
    have htext := htext _ List.mem_cons_self
    obtain ⟨rest, rfl⟩ := hagrees.exists_rest hfirst hinside hweights hword
    obtain ⟨rest', rfl⟩ := hagrees'.exists_rest hsecond hinside' hweights hword
    obtain rfl := hagrees.leaf_eq hfirst hinside hparts htexts htext
    obtain rfl := hagrees'.leaf_eq hsecond hinside' hparts htexts htext
    exact ⟨_, t, hgrown, .refl i j _⟩
  | @single index rule word part weights way left t hweights hparts hleft hbuilt ih =>
    refine (Grown.single hweights hparts hleft hbuilt).exists_square_of hi hj hij hji hfirst hsecond
      hway hagrees hagrees' fun hinside hinside' => ?_
    obtain ⟨hword, hrest⟩ := List.forall_mem_cons.mp hway
    obtain ⟨rest, rfl⟩ := hagrees.exists_rest hfirst hinside hweights hword
    obtain ⟨rest', rfl⟩ := hagrees'.exists_rest hsecond hinside' hweights hword
    obtain ⟨_, hfirst'⟩ := hfirst.of_one_part hparts
    obtain ⟨_, hsecond'⟩ := hsecond.of_one_part hparts
    obtain ⟨merged, s, hmerged, hsquare⟩ := ih hfirst' hsecond' hrest hagrees.tail hagrees'.tail
    obtain ⟨kind, -, hbuilds⟩ := Vocabulary.eq_of_buildBranch hbuilt
    exact ⟨_, _, .single hweights hparts hmerged (hbuilds _ _), hsquare.cons _⟩
  | @pair index rule word first' second' weights leftWay rightWay left right t hweights hparts hleft
      hright hbuilt ihl ihr =>
    refine (Grown.pair hweights hparts hleft hright hbuilt).exists_square_of hi hj hij hji hfirst
      hsecond hway hagrees hagrees' fun hinside hinside' => ?_
    obtain ⟨hword, hrest⟩ := List.forall_mem_cons.mp hway
    obtain ⟨hlefts, hrights⟩ := List.forall_mem_append.mp hrest
    obtain ⟨rest, rfl⟩ := hagrees.exists_rest hfirst hinside hweights hword
    obtain ⟨rest', rfl⟩ := hagrees'.exists_rest hsecond hinside' hweights hword
    obtain ⟨_, _, _, _, rfl, hfirstLeft, hfirstRight⟩ := hfirst.of_two_parts hparts
    obtain ⟨_, _, _, _, rfl, hsecondLeft, hsecondRight⟩ := hsecond.of_two_parts hparts
    obtain ⟨hagreesLeft, hagreesRight⟩ := List.forall_mem_append.mp hagrees.tail
    obtain ⟨hagreesLeft', hagreesRight'⟩ := List.forall_mem_append.mp hagrees'.tail
    obtain ⟨_, _, hmergedLeft, hsquareLeft⟩ :=
      ihl hfirstLeft hsecondLeft hlefts hagreesLeft hagreesLeft'
    obtain ⟨_, _, hmergedRight, hsquareRight⟩ :=
      ihr hfirstRight hsecondRight hrights hagreesRight hagreesRight'
    obtain ⟨kind, -, hbuilds⟩ := Vocabulary.eq_of_buildBranch hbuilt
    exact ⟨_, _, .pair hweights hparts hmergedLeft hmergedRight (hbuilds _ _),
      (hsquareLeft.append hsquareRight).cons _⟩

end Merging

end Deontic.Grammar
