import Deontic.Grammar.Growth
import Deontic.Proofs.Positions
import Deontic.Proofs.Way

/-! Growth as derivations.  `Grown grammar index rule way t` says that `t` derives from a rule at a
position, and `way` is the row of choices that tell how.  The program `grow` goes exactly these
ways: every complete way is a derivation (`Grown.of_follows`), and a derivation is a way for any
number of nested calls that is not below the number of its choices (`Grown.follows`). -/

namespace Deontic

theorem Value.eq_text_of_text? {v : Value} {s : String} (h : v.text? = some s) : v = .text s := by
  cases v with
  | text t => rw [Option.some.inj h]
  | _ => cases h

namespace Grammar

variable {P : Type} {grammar : Grammar P}

/-- The parts of a word under a rule. -/
def parts? (grammar : Grammar P) (rule word : String) : Option (List String) :=
  (grammar.rules.get? rule).bind (·.get? word)

/-- The choice of a word for a position. -/
def wordVisit (index : Int) (weights : Table String P) (word : String) : Visit P :=
  ⟨[key index "node_type"], .ofTexts weights, .text word⟩

/-- The choice of a text for a leaf. -/
def textVisit (index : Int) (word : String) (texts : Table String P) (text : String) : Visit P :=
  ⟨[key index word], .ofTexts texts, .text text⟩

/-- The rest of a growth, when its word is chosen. -/
def growParts (grammar : Grammar P) (calls : Nat) (index : Int) (word : String) :
    List String → Sampler P Tree
  | [] => grammar.growLeaf index word
  | [left] =>
    (grammar.grow calls (Tree.leftOf index) left).bind fun left =>
      .ofExcept ((grammar.vocabulary.buildBranch word left .missing).mapError .vocabulary)
  | [left, right] =>
    (grammar.grow calls (Tree.leftOf index) left).bind fun left =>
      (grammar.grow calls (Tree.rightOf index) right).bind fun right =>
        .ofExcept ((grammar.vocabulary.buildBranch word left right).mapError .vocabulary)
  | _ => .fail (.grammar (.tooManyPartsGrown word))

theorem grow_succ (calls : Nat) (index : Int) (rule : String) :
    grammar.grow (calls + 1) index rule =
      (chooseWord grammar index rule).bind fun word =>
        (entry grammar.rules rule).bind fun offered =>
          (entry offered word).bind fun parts => grammar.growParts calls index word parts := by
  rw [grow]
  refine congrArg _ (funext fun word => congrArg _ (funext fun offered =>
    congrArg _ (funext fun parts => ?_)))
  rcases parts with _ | ⟨left, _ | ⟨right, _ | ⟨_, _⟩⟩⟩ <;> rfl

theorem follows_built {result : Except WordFault Tree} {way : Way P} {t : Tree} :
    (Sampler.ofExcept (result.mapError .vocabulary) : Sampler P Tree).Follows way t ↔
      way = [] ∧ result = .ok t := by
  rw [Sampler.follows_ofExcept]
  refine and_congr_right fun _ => ?_
  cases result with
  | error => constructor <;> intro h <;> cases h
  | ok => constructor <;> intro h <;> cases h <;> rfl

theorem follows_entry {ν : Type} {table : Table String ν} {name : String}
    {way : Way P} {found : ν} :
    (entry table name : Sampler P ν).Follows way found ↔
      way = [] ∧ table.get? name = some found := by
  rw [entry]
  cases table.get? name with
  | none => exact ⟨fun h => (Sampler.not_follows_fail h).elim, fun h => by cases h.2⟩
  | some => simp [Sampler.follows_pure]

theorem follows_chooseWord {index : Int} {rule : String} {way : Way P} {word : String} :
    (chooseWord grammar index rule).Follows way word ↔
      ∃ weights, grammar.wordWeights.get? rule = some weights ∧
        way = [wordVisit index weights word] := by
  constructor
  · intro h
    obtain ⟨weights, _, _, rfl, hentry, hrest⟩ := Sampler.follows_bind.mp h
    obtain ⟨rfl, hweights⟩ := follows_entry.mp hentry
    obtain ⟨chosen, _, _, rfl, hchosen, hword⟩ := Sampler.follows_bind.mp hrest
    obtain rfl := Sampler.follows_sample.mp hchosen
    refine ⟨weights, hweights, ?_⟩
    cases htext : chosen.text? with
    | none => rw [htext] at hword; exact (Sampler.not_follows_fail hword).elim
    | some text =>
      rw [htext] at hword
      obtain ⟨rfl, rfl⟩ := Sampler.follows_pure.mp hword
      rw [Value.eq_text_of_text? htext]
      rfl
  · rintro ⟨weights, hweights, rfl⟩
    refine Sampler.follows_bind.mpr ⟨weights, [], _, rfl, follows_entry.mpr ⟨rfl, hweights⟩, ?_⟩
    exact Sampler.follows_bind.mpr ⟨.text word, _, [], rfl, Sampler.follows_sample.mpr rfl, .refl _⟩

theorem follows_growLeaf {index : Int} {word : String} {way : Way P} {t : Tree} :
    (grammar.growLeaf index word).Follows way t ↔
      ∃ texts text, grammar.textWeights.get? word = some texts ∧
        grammar.vocabulary.buildLeaf word text = .ok t ∧
        way = [textVisit index word texts text] := by
  rw [growLeaf]
  cases grammar.textWeights.get? word with
  | none => exact ⟨fun h => (Sampler.not_follows_fail h).elim, fun ⟨_, _, h, _⟩ => by cases h⟩
  | some texts =>
    constructor
    · intro h
      obtain ⟨chosen, _, _, rfl, hchosen, hrest⟩ := Sampler.follows_bind.mp h
      obtain rfl := Sampler.follows_sample.mp hchosen
      cases htext : chosen.text? with
      | none => rw [htext] at hrest; exact (Sampler.not_follows_fail hrest).elim
      | some text =>
        rw [htext] at hrest
        obtain ⟨rfl, hbuilt⟩ := follows_built.mp hrest
        rw [Value.eq_text_of_text? htext]
        exact ⟨texts, text, rfl, hbuilt, rfl⟩
    · rintro ⟨_, text, htexts, hbuilt, rfl⟩
      cases htexts
      exact Sampler.follows_bind.mpr ⟨.text text, _, [], rfl, Sampler.follows_sample.mpr rfl,
        follows_built.mpr ⟨rfl, hbuilt⟩⟩

theorem follows_grow_succ {calls : Nat} {index : Int} {rule : String} {way : Way P} {t : Tree} :
    (grammar.grow (calls + 1) index rule).Follows way t ↔
      ∃ weights word parts rest, grammar.wordWeights.get? rule = some weights ∧
        grammar.parts? rule word = some parts ∧ way = wordVisit index weights word :: rest ∧
        (grammar.growParts calls index word parts).Follows rest t := by
  rw [grow_succ]
  constructor
  · intro h
    obtain ⟨word, _, _, rfl, hword, hrest⟩ := Sampler.follows_bind.mp h
    obtain ⟨weights, hweights, rfl⟩ := follows_chooseWord.mp hword
    obtain ⟨offered, _, _, rfl, hentry, hrest'⟩ := Sampler.follows_bind.mp hrest
    obtain ⟨rfl, hoffered⟩ := follows_entry.mp hentry
    obtain ⟨parts, _, rest, rfl, hentry', hgrown⟩ := Sampler.follows_bind.mp hrest'
    obtain ⟨rfl, hparts⟩ := follows_entry.mp hentry'
    refine ⟨weights, word, parts, rest, hweights, ?_, rfl, hgrown⟩
    rw [parts?, hoffered]
    exact hparts
  · rintro ⟨weights, word, parts, rest, hweights, hparts, rfl, hrest⟩
    obtain ⟨offered, hoffered, hparts⟩ := Option.bind_eq_some_iff.mp hparts
    have hgrown : ((entry offered word).bind fun parts =>
        grammar.growParts calls index word parts).Follows rest t :=
      Sampler.follows_bind.mpr ⟨parts, [], rest, rfl, follows_entry.mpr ⟨rfl, hparts⟩, hrest⟩
    have hoffers : ((entry grammar.rules rule).bind fun offered => (entry offered word).bind
        fun parts => grammar.growParts calls index word parts).Follows rest t :=
      Sampler.follows_bind.mpr ⟨offered, [], rest, rfl, follows_entry.mpr ⟨rfl, hoffered⟩, hgrown⟩
    exact Sampler.follows_bind.mpr ⟨word, [_], rest, rfl,
      follows_chooseWord.mpr ⟨weights, hweights, rfl⟩, hoffers⟩

/-- Derivations with their choices. -/
inductive Grown (grammar : Grammar P) : Int → String → Way P → Tree → Prop
  | leaf {index : Int} {rule word text : String} {weights texts : Table String P} {t : Tree}
      (hweights : grammar.wordWeights.get? rule = some weights)
      (hparts : grammar.parts? rule word = some [])
      (htexts : grammar.textWeights.get? word = some texts)
      (hbuilt : grammar.vocabulary.buildLeaf word text = .ok t) :
      Grown grammar index rule [wordVisit index weights word, textVisit index word texts text] t
  | single {index : Int} {rule word part : String} {weights : Table String P} {way : Way P}
      {left t : Tree} (hweights : grammar.wordWeights.get? rule = some weights)
      (hparts : grammar.parts? rule word = some [part])
      (hleft : Grown grammar (Tree.leftOf index) part way left)
      (hbuilt : grammar.vocabulary.buildBranch word left .missing = .ok t) :
      Grown grammar index rule (wordVisit index weights word :: way) t
  | pair {index : Int} {rule word first second : String} {weights : Table String P}
      {leftWay rightWay : Way P} {left right t : Tree}
      (hweights : grammar.wordWeights.get? rule = some weights)
      (hparts : grammar.parts? rule word = some [first, second])
      (hleft : Grown grammar (Tree.leftOf index) first leftWay left)
      (hright : Grown grammar (Tree.rightOf index) second rightWay right)
      (hbuilt : grammar.vocabulary.buildBranch word left right = .ok t) :
      Grown grammar index rule (wordVisit index weights word :: (leftWay ++ rightWay)) t

/-- Every complete way of a growth is a derivation. -/
theorem Grown.of_follows {calls : Nat} {index : Int} {rule : String} {way : Way P} {t : Tree}
    (h : (grammar.grow calls index rule).Follows way t) : Grown grammar index rule way t := by
  induction calls generalizing index rule way t with
  | zero => exact (Sampler.not_follows_fail h).elim
  | succ calls ih =>
    obtain ⟨weights, word, parts, rest, hweights, hparts, rfl, hrest⟩ := follows_grow_succ.mp h
    rcases parts with _ | ⟨first, _ | ⟨second, _ | ⟨_, _⟩⟩⟩
    · obtain ⟨texts, text, htexts, hbuilt, rfl⟩ := follows_growLeaf.mp hrest
      exact .leaf hweights hparts htexts hbuilt
    · obtain ⟨left, way, _, rfl, hleft, hlast⟩ := Sampler.follows_bind.mp hrest
      obtain ⟨rfl, hbuilt⟩ := follows_built.mp hlast
      rw [List.append_nil]
      exact .single hweights hparts (ih hleft) hbuilt
    · obtain ⟨left, leftWay, _, rfl, hleft, hothers⟩ := Sampler.follows_bind.mp hrest
      obtain ⟨right, rightWay, _, rfl, hright, hlast⟩ := Sampler.follows_bind.mp hothers
      obtain ⟨rfl, hbuilt⟩ := follows_built.mp hlast
      rw [List.append_nil]
      exact .pair hweights hparts (ih hleft) (ih hright) hbuilt
    · exact (Sampler.not_follows_fail hrest).elim

/-- A derivation is a way of a growth that may nest as many calls as there are choices. -/
theorem Grown.follows {calls : Nat} {index : Int} {rule : String} {way : Way P} {t : Tree}
    (h : Grown grammar index rule way t) (hcalls : way.length ≤ calls) :
    (grammar.grow calls index rule).Follows way t := by
  induction h generalizing calls with
  | leaf hweights hparts htexts hbuilt =>
    cases calls with
    | zero => cases hcalls
    | succ calls =>
      exact follows_grow_succ.mpr ⟨_, _, _, _, hweights, hparts, rfl,
        follows_growLeaf.mpr ⟨_, _, htexts, hbuilt, rfl⟩⟩
  | single hweights hparts _ hbuilt ih =>
    cases calls with
    | zero => cases hcalls
    | succ calls =>
      refine follows_grow_succ.mpr ⟨_, _, _, _, hweights, hparts, rfl, ?_⟩
      have hleft := ih (show _ ≤ calls from Nat.le_of_succ_le_succ hcalls)
      exact Sampler.follows_bind.mpr ⟨_, _, [], (List.append_nil _).symm, hleft,
        follows_built.mpr ⟨rfl, hbuilt⟩⟩
  | pair hweights hparts _ _ hbuilt ihl ihr =>
    cases calls with
    | zero => cases hcalls
    | succ calls =>
      refine follows_grow_succ.mpr ⟨_, _, _, _, hweights, hparts, rfl, ?_⟩
      simp only [List.length_cons, List.length_append] at hcalls
      have hleft := ihl (show _ ≤ calls by omega)
      have hright := ihr (show _ ≤ calls by omega)
      refine Sampler.follows_bind.mpr ⟨_, _, _, rfl, hleft, ?_⟩
      exact Sampler.follows_bind.mpr ⟨_, _, [], (List.append_nil _).symm, hright,
        follows_built.mpr ⟨rfl, hbuilt⟩⟩

/-- A derivation starts with a word, and is one from every rule that gives the word the same parts.
-/
theorem Grown.exists_word {index : Int} {rule : String} {way : Way P} {t : Tree}
    (h : Grown grammar index rule way t) :
    ∃ weights word parts rest, grammar.wordWeights.get? rule = some weights ∧
      grammar.parts? rule word = some parts ∧ way = wordVisit index weights word :: rest ∧
      ∀ rule' weights', grammar.wordWeights.get? rule' = some weights' →
        grammar.parts? rule' word = some parts →
        Grown grammar index rule' (wordVisit index weights' word :: rest) t := by
  cases h with
  | leaf hweights hparts htexts hbuilt =>
    exact ⟨_, _, _, _, hweights, hparts, rfl, fun _ _ hweights' hparts' =>
      .leaf hweights' hparts' htexts hbuilt⟩
  | single hweights hparts hleft hbuilt =>
    exact ⟨_, _, _, _, hweights, hparts, rfl, fun _ _ hweights' hparts' =>
      .single hweights' hparts' hleft hbuilt⟩
  | pair hweights hparts hleft hright hbuilt =>
    exact ⟨_, _, _, _, hweights, hparts, rfl, fun _ _ hweights' hparts' =>
      .pair hweights' hparts' hleft hright hbuilt⟩

/-- Two derivations with the same values are one. -/
theorem Grown.unique {index : Int} {rule : String} {way way' : Way P} {t t' : Tree}
    (h : Grown grammar index rule way t) (h' : Grown grammar index rule way' t')
    (values : Path → Option Value) (hway : ∀ visit ∈ way, values visit.address = some visit.value)
    (hway' : ∀ visit ∈ way', values visit.address = some visit.value) : way = way' ∧ t = t' := by
  have hfollows := h.follows (Nat.le_add_right way.length way'.length)
  have hfollows' := h'.follows (Nat.le_add_left way'.length way.length)
  exact hfollows.unique hfollows' values hway hway'

/-- The choices of a derivation are made at positions below its own. -/
theorem Grown.exists_key {index : Int} {rule : String} {way : Way P} {t : Tree}
    (h : Grown grammar index rule way t) :
    ∀ visit ∈ way, ∃ j name, Tree.Below index j ∧ visit.address = [key j name] := by
  induction h with
  | leaf =>
    refine List.forall_mem_cons.mpr ⟨⟨_, _, ⟨[], rfl⟩, rfl⟩, ?_⟩
    exact List.forall_mem_singleton.mpr ⟨_, _, ⟨[], rfl⟩, rfl⟩
  | single _ _ _ _ ih =>
    refine List.forall_mem_cons.mpr ⟨⟨_, _, ⟨[], rfl⟩, rfl⟩, fun visit hvisit => ?_⟩
    obtain ⟨j, name, ⟨steps, rfl⟩, haddress⟩ := ih visit hvisit
    exact ⟨_, name, ⟨.left :: steps, rfl⟩, haddress⟩
  | pair _ _ _ _ _ ihl ihr =>
    refine List.forall_mem_cons.mpr ⟨⟨_, _, ⟨[], rfl⟩, rfl⟩, fun visit hvisit => ?_⟩
    rcases List.mem_append.mp hvisit with hvisit | hvisit
    · obtain ⟨j, name, ⟨steps, rfl⟩, haddress⟩ := ihl visit hvisit
      exact ⟨_, name, ⟨.left :: steps, rfl⟩, haddress⟩
    · obtain ⟨j, name, ⟨steps, rfl⟩, haddress⟩ := ihr visit hvisit
      exact ⟨_, name, ⟨.right :: steps, rfl⟩, haddress⟩

end Grammar

end Deontic
