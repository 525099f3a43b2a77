import Deontic.Proofs.Beginnings

/-! Derivations with a gap.  `Around grammar index rule steps gap before after plug` says that what
surrounds a position derives from a rule: the position is at the end of a way down, anything that
derives there from the rule `gap` can be plugged in (`Around.grown`), and `before` and `after` are
the choices of the surroundings.  A derivation falls apart into the part at a position and what
surrounds it (`Grown.exists_around`), and a growth comes to the gap with the choices before it
(`Around.reaches`). -/

namespace Deontic

namespace Vocabulary

variable {vocabulary : Vocabulary} {word : String}

/-- A word stands for a variant of nodes. -/
def Names (vocabulary : Vocabulary) (word : String) (shape : Shape) : Prop :=
  ∃ found, vocabulary.lookup word = .ok found ∧ found.shape = shape

theorem buildLeaf_eq_ok {text : String} {t : Tree} :
    vocabulary.buildLeaf word text = .ok t ↔
      ∃ kind, vocabulary.Names word (.leaf kind) ∧ t = .ofLeaf kind text := by
  unfold buildLeaf Names
  cases vocabulary.lookup word with
  | error => exact ⟨nofun, fun ⟨_, ⟨_, h, _⟩, _⟩ => by cases h⟩
  | ok found =>
    obtain ⟨name, shape, regrowth⟩ := found
    constructor
    · intro h
      cases shape with
      | leaf kind => cases h; exact ⟨kind, ⟨_, rfl, rfl⟩, rfl⟩
      | empty | branch => cases h
    · rintro ⟨kind, ⟨_, ⟨⟩, rfl⟩, rfl⟩
      rfl

theorem buildBranch_eq_ok {left right t : Tree} :
    vocabulary.buildBranch word left right = .ok t ↔
      ∃ kind, vocabulary.Names word (.branch kind) ∧ t = .ofBranch kind left right := by
  unfold buildBranch Names
  cases vocabulary.lookup word with
  | error => exact ⟨nofun, fun ⟨_, ⟨_, h, _⟩, _⟩ => by cases h⟩
  | ok found =>
    obtain ⟨name, shape, regrowth⟩ := found
    constructor
    · intro h
      cases shape with
      | branch kind => cases h; exact ⟨kind, ⟨_, rfl, rfl⟩, rfl⟩
      | leaf | empty => cases h
    · rintro ⟨kind, ⟨_, ⟨⟩, rfl⟩, rfl⟩
      rfl

theorem eq_of_buildBranch {left right t : Tree}
    (h : vocabulary.buildBranch word left right = .ok t) :
    ∃ kind, t = .ofBranch kind left right ∧
      ∀ left right, vocabulary.buildBranch word left right = .ok (.ofBranch kind left right) := by
  obtain ⟨kind, hnames, rfl⟩ := buildBranch_eq_ok.mp h
  exact ⟨kind, rfl, fun _ _ => buildBranch_eq_ok.mpr ⟨kind, hnames, rfl⟩⟩

theorem eq_of_buildLeaf {text : String} {t : Tree} (h : vocabulary.buildLeaf word text = .ok t) :
    ∃ kind, t = .ofLeaf kind text := by
  obtain ⟨kind, -, rfl⟩ := buildLeaf_eq_ok.mp h
  exact ⟨kind, rfl⟩

end Vocabulary

namespace Grammar

open Deontic.Tree

variable {P : Type} {grammar : Grammar P}

/-- The rule for the position at the end of a way down, if the values tell the words above it. -/
def ruleBelow (grammar : Grammar P) (values : Path → Option Value) :
    Int → String → List Side → Option String
  | _, rule, [] => some rule
  | index, rule, .left :: rest =>
    ((values [key index "node_type"]).bind Value.text?).bind fun word =>
      ((grammar.parts? rule word).bind (·[0]?)).bind fun part =>
        ruleBelow grammar values (leftOf index) part rest
  | index, rule, .right :: rest =>
    ((values [key index "node_type"]).bind Value.text?).bind fun word =>
      ((grammar.parts? rule word).bind (·[1]?)).bind fun part =>
        ruleBelow grammar values (rightOf index) part rest

/-- Where a word is told, the way goes on under the rule of the part on its side. -/
theorem ruleBelow_cons {values : Path → Option Value} {index : Int} {rule word : String}
    (hword : values [key index "node_type"] = some (.text word)) (side : Side)
    (rest : List Side) : grammar.ruleBelow values index rule (side :: rest) =
      ((grammar.parts? rule word).bind (·[side.digit]?)).bind fun part =>
        grammar.ruleBelow values (descend index [side]) part rest := by
  cases side <;> (rw [ruleBelow, hword]; rfl)

/-- Derivations with a gap. -/
inductive Around (grammar : Grammar P) :
    Int → String → List Side → String → Way P → Way P → (Tree → Tree) → Prop
  | here (index : Int) (rule : String) : Around grammar index rule [] rule [] [] id
  | single {index : Int} {rule word part gap : String} {weights : Table String P}
      {kind : BranchKind} {steps : List Side} {before after : Way P} {plug : Tree → Tree}
      (hweights : grammar.wordWeights.get? rule = some weights)
      (hparts : grammar.parts? rule word = some [part])
      (hbuilt : ∀ left right, grammar.vocabulary.buildBranch word left right =
        .ok (ofBranch kind left right))
      (hleft : Around grammar (leftOf index) part steps gap before after plug) :
      Around grammar index rule (.left :: steps) gap (wordVisit index weights word :: before) after
        fun t => ofBranch kind (plug t) missing
  | left {index : Int} {rule word first second gap : String} {weights : Table String P}
      {kind : BranchKind} {steps : List Side} {before after rightWay : Way P} {plug : Tree → Tree}
      {right : Tree} (hweights : grammar.wordWeights.get? rule = some weights)
      (hparts : grammar.parts? rule word = some [first, second])
      (hbuilt : ∀ left right, grammar.vocabulary.buildBranch word left right =
        .ok (ofBranch kind left right))
      (hleft : Around grammar (leftOf index) first steps gap before after plug)
      (hright : Grown grammar (rightOf index) second rightWay right) :
      Around grammar index rule (.left :: steps) gap (wordVisit index weights word :: before)
        (after ++ rightWay) fun t => ofBranch kind (plug t) right
  | right {index : Int} {rule word first second gap : String} {weights : Table String P}
      {kind : BranchKind} {steps : List Side} {before after leftWay : Way P} {plug : Tree → Tree}
      {left : Tree} (hweights : grammar.wordWeights.get? rule = some weights)
      (hparts : grammar.parts? rule word = some [first, second])
      (hbuilt : ∀ left right, grammar.vocabulary.buildBranch word left right =
        .ok (ofBranch kind left right))
      (hleft : Grown grammar (leftOf index) first leftWay left)
      (hright : Around grammar (rightOf index) second steps gap before after plug) :
      Around grammar index rule (.right :: steps) gap
        (wordVisit index weights word :: (leftWay ++ before)) after
        fun t => ofBranch kind left (plug t)

/-- A derivation falls apart into the part at a position and its surroundings. -/
theorem Grown.exists_around {index : Int} {rule : String} {way : Way P} {t node : Tree}
    {steps : List Side} (h : Grown grammar index rule way t) (hnode : t.follow? steps = some node)
    (hshape : node.shape ≠ .empty) :
    ∃ gap before inner after plug, Around grammar index rule steps gap before after plug ∧
      Grown grammar (descend index steps) gap inner node ∧ way = before ++ (inner ++ after) ∧
      t = plug node := by
  -- a missing part has no derivation, so the way down ends before it
  induction steps generalizing index rule way t with
  | nil =>
    rw [follow?_nil] at hnode
    obtain rfl := Option.some.inj hnode
    exact ⟨rule, [], way, [], id, .here index rule, h, (List.append_nil _).symm, rfl⟩
  | cons side rest ih =>
    cases h with
    | leaf _ _ _ hbuilt =>
      obtain ⟨kind, rfl⟩ := Vocabulary.eq_of_buildLeaf hbuilt
      cases side <;> cases hnode
    | single hweights hparts hleft hbuilt =>
      obtain ⟨kind, rfl, hbuilds⟩ := Vocabulary.eq_of_buildBranch hbuilt
      cases side with
      | left =>
        obtain ⟨gap, before, inner, after, plug, haround, hinner, rfl, rfl⟩ := ih hleft hnode
        exact ⟨gap, _, inner, after, _, .single hweights hparts hbuilds haround, hinner, rfl, rfl⟩
      | right =>
        cases rest with
        | nil => cases hnode; exact (hshape rfl).elim
        | cons side => cases side <;> cases hnode
    | pair hweights hparts hleft hright hbuilt =>
      obtain ⟨kind, rfl, hbuilds⟩ := Vocabulary.eq_of_buildBranch hbuilt
      cases side with
      | left =>
        obtain ⟨gap, before, inner, after, plug, haround, hinner, rfl, rfl⟩ := ih hleft hnode
        refine ⟨gap, _, inner, _, _, .left hweights hparts hbuilds haround hright, hinner, ?_, rfl⟩
        simp only [List.cons_append, List.append_assoc]
      | right =>
        obtain ⟨gap, before, inner, after, plug, haround, hinner, rfl, rfl⟩ := ih hright hnode
        refine ⟨gap, _, inner, _, _, .right hweights hparts hbuilds hleft haround, hinner, ?_, rfl⟩
        simp only [List.cons_append, List.append_assoc]

namespace Around

variable {index : Int} {rule gap : String} {steps : List Side} {before after : Way P}
  {plug : Tree → Tree}

/-- What derives at the gap can be plugged in. -/
theorem grown (h : Around grammar index rule steps gap before after plug) {inner : Way P} {t : Tree}
    (hinner : Grown grammar (descend index steps) gap inner t) :
    Grown grammar index rule (before ++ (inner ++ after)) (plug t) := by
  induction h with
  | here => rwa [List.append_nil]
  | single hweights hparts hbuilt _ ih => exact .single hweights hparts (ih hinner) (hbuilt _ _)
  | left hweights hparts hbuilt _ hright ih =>
    have hpair := Grown.pair hweights hparts (ih hinner) hright (hbuilt _ _)
    simpa only [List.cons_append, List.append_assoc] using hpair
  | right hweights hparts hbuilt hleft _ ih =>
    have hpair := Grown.pair hweights hparts hleft (ih hinner) (hbuilt _ _)
    simpa only [List.cons_append, List.append_assoc] using hpair

/-- What begins at the gap begins after the choices before it. -/
theorem begun (h : Around grammar index rule steps gap before after plug) {way : Way P}
    {address : Path} {dist : Distribution P}
    (hbegun : Begun grammar (descend index steps) gap way address dist) :
    Begun grammar index rule (before ++ way) address dist := by
  induction h with
  | here => exact hbegun
  | single hweights hparts _ _ ih => exact .single hweights hparts (ih hbegun)
  | left hweights hparts _ _ _ ih => exact .first hweights hparts (ih hbegun)
  | right hweights hparts _ hleft _ ih =>
    have hsecond := Begun.second hweights hparts hleft (ih hbegun)
    rwa [← List.append_assoc, ← List.cons_append] at hsecond

theorem regrow (h : Around grammar index rule steps gap before after plug) (old new : Tree) :
    regrow? new (plug old) steps = some (plug new) := by
  induction h with
  | here => exact regrow?_nil new old
  | single _ _ _ _ ih | left _ _ _ _ _ ih | right _ _ _ _ _ ih =>
    show (regrow? new _ _).map _ = _
    rw [ih]
    rfl

theorem follow (h : Around grammar index rule steps gap before after plug) (t : Tree) :
    (plug t).follow? steps = some t := by
  induction h with
  | here => exact follow?_nil t
  | single _ _ _ _ ih | left _ _ _ _ _ ih => exact ih
  | right _ _ _ _ _ ih => exact ih

theorem ruleBelow_eq (h : Around grammar index rule steps gap before after plug)
    {values : Path → Option Value}
    (hvalues : ∀ visit ∈ before, values visit.address = some visit.value) :
    grammar.ruleBelow values index rule steps = some gap := by
  induction h with
  | here => rfl
  | single _ hparts _ _ ih | left _ hparts _ _ _ ih =>
    obtain ⟨hword, hrest⟩ := List.forall_mem_cons.mp hvalues
    rw [ruleBelow_cons hword, hparts]
    exact ih hrest
  | right _ hparts _ _ _ ih =>
    obtain ⟨hword, hrest⟩ := List.forall_mem_cons.mp hvalues
    rw [ruleBelow_cons hword, hparts]
    exact ih fun visit hvisit => hrest visit (List.mem_append_right _ hvisit)

/-- The choices of the surroundings are made outside the tree at the gap. -/
theorem outside (h : Around grammar index rule steps gap before after plug) (hindex : 1 ≤ index) :
    ∀ visit ∈ before ++ after, ∃ j name, ¬ Below (descend index steps) j ∧
      visit.address = [key j name] := by
  induction h with
  | here => exact List.forall_mem_nil _
  | single _ _ _ _ ih =>
    have hleft := ih (by rw [leftOf]; omega)
    exact List.forall_mem_cons.mpr ⟨⟨_, _, not_below_self hindex, rfl⟩, hleft⟩
  | left _ _ _ _ hright ih =>
    have hleft := ih (by rw [leftOf]; omega)
    rw [← List.append_assoc]
    refine List.forall_mem_append.mpr ⟨List.forall_mem_cons.mpr ⟨⟨_, _, not_below_self hindex, rfl⟩,
      hleft⟩, fun visit hvisit => ?_⟩
    obtain ⟨_, name, ⟨later, rfl⟩, haddress⟩ := hright.exists_key visit hvisit
    have hside : Side.left ≠ .right := by decide
    exact ⟨_, name, not_below_other hindex hside, haddress⟩
  | right _ _ _ hleft _ ih =>
    have hright := ih (by rw [rightOf]; omega)
    rw [List.cons_append, List.append_assoc]
    refine List.forall_mem_cons.mpr ⟨⟨_, _, not_below_self hindex, rfl⟩,
      List.forall_mem_append.mpr ⟨fun visit hvisit => ?_, hright⟩⟩
    obtain ⟨_, name, ⟨later, rfl⟩, haddress⟩ := hleft.exists_key visit hvisit
    have hside : Side.right ≠ .left := by decide
    exact ⟨_, name, not_below_other hindex hside, haddress⟩

/-- A growth that may nest as many calls as there are choices before the gap comes to the gap with
these choices. -/
theorem reaches (h : Around grammar index rule steps gap before after plug) {calls : Nat}
    (hcalls : before.length ≤ calls) :
    ∃ (left : Nat) (rest : Tree → Sampler P Tree), calls ≤ left + before.length ∧
      (grammar.grow calls index rule).Reaches before
        ((grammar.grow left (descend index steps) gap).bind rest) := by
  induction h generalizing calls with
  | here index rule =>
    refine ⟨calls, .pure, Nat.le_refl _, ?_⟩
    rw [Sampler.bind_pure]
    exact .refl _
  | single hweights hparts _ _ ih | left hweights hparts _ _ _ ih =>
    obtain ⟨calls, rfl⟩ := Nat.exists_eq_succ_of_ne_zero (Nat.ne_of_gt (Nat.zero_lt_of_lt hcalls))
    obtain ⟨left, rest, hleft, hreaches⟩ := ih (Nat.le_of_succ_le_succ hcalls)
    have hgrown := (reaches_growParts _ hweights hparts calls).trans (hreaches.bind _)
    rw [Sampler.bind_assoc] at hgrown
    refine ⟨left, _, ?_, hgrown⟩
    rw [List.length_cons]
    omega
  | right hweights hparts _ hleft _ ih =>
    obtain ⟨calls, rfl⟩ := Nat.exists_eq_succ_of_ne_zero (Nat.ne_of_gt (Nat.zero_lt_of_lt hcalls))
    simp only [List.length_cons, List.length_append] at hcalls
    obtain ⟨left, rest, hlast, hreaches⟩ := ih (show _ ≤ calls by omega)
    have hfirst := hleft.follows (show _ ≤ calls by omega)
    have hgrown := (reaches_growParts _ hweights hparts calls).trans
      ((Sampler.Reaches.bind hfirst _).trans (hreaches.bind _))
    rw [Sampler.bind_assoc] at hgrown
    refine ⟨left, _, ?_, hgrown⟩
    simp only [List.length_cons, List.length_append]
    omega

end Around

end Grammar

end Deontic
