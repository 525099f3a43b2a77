import Deontic.Proofs.Readiness
import Deontic.Proofs.Replacement
import Deontic.Proofs.Uniformity

/-! The ways of proposals.  A proposal walks to a node, with its choices below `"pick_node"`, and
grows a tree for its place, with its choices below `"subtree"`, unless the node is missing
(`exists_of_follows_proposal`, `follows_proposal`).  In a grammar that passes its check, a proposal
for a tree of the grammar comes to an end or runs out of draws (`Ready.ends_proposal`). -/

namespace Deontic

variable {P W α : Type}

/-! ### Labels -/

/-- Addresses of two keys, the first of them a label. -/
def Way.Labelled (labels : List String) (way : Way P) : Prop :=
  ∀ visit ∈ way, ∃ label ∈ labels, ∃ key, visit.address = [.text label, key]

theorem Way.labelled_under {label : String} {way : Way P}
    (h : ∀ visit ∈ way, ∃ key, visit.address = [key]) {labels : List String}
    (hlabel : label ∈ labels) : (way.under (.text label)).Labelled labels := by
  intro visit hvisit
  obtain ⟨inner, hinner, rfl⟩ := List.mem_map.mp hvisit
  obtain ⟨key, hkey⟩ := h inner hinner
  exact ⟨label, hlabel, key, by rw [Visit.address_under, hkey]⟩

/-- Below `"pick_node"` the values are those of the walk, and below `"subtree"` those grown. -/
theorem Way.value?_text (walk growth : Way P) (label : String) (path : Path) :
    Way.value? (walk.under (.text "pick_node") ++ growth.under (.text "subtree"))
      (.text label :: path) =
        if label = "pick_node" then walk.value? path
        else if label = "subtree" then growth.value? path else none := by
  rw [value?_append, value?_under, value?_under]
  simp only [Value.text_beq_text]
  rcases eq_or_ne label "pick_node" with rfl | hpick
  · simp
  · simp [hpick, hpick.symm, eq_comm]

/-- It does not matter in which order the labels are looked up. -/
theorem Way.value?_labelled (walk growth : Way P) (path : Path) :
    Way.value? (walk.under (.text "pick_node") ++ growth.under (.text "subtree")) path =
      (Way.value? (growth.under (.text "subtree")) path).or
        (Way.value? (walk.under (.text "pick_node")) path) := by
  rcases path with _ | ⟨key, rest⟩
  · rw [value?_append, value?_under_nil, value?_under_nil]
  · rw [value?_append, value?_under, value?_under]
    cases hkey : Value.text "pick_node" == key with
    | false => exact Option.or_none.symm
    | true =>
      have hlabels : (Value.text "subtree" == Value.text "pick_node") = false := by decide
      rw [Value.text_beq hkey, hlabels]
      exact Option.or_none

theorem Way.value?_labelled_congr {walk walk' growth growth' : Way P}
    (hwalk : walk.entries = walk'.entries) (hgrowth : growth.entries = growth'.entries) :
    Way.value? (walk.under (.text "pick_node") ++ growth.under (.text "subtree")) =
      Way.value? (walk'.under (.text "pick_node") ++ growth'.under (.text "subtree")) := by
  funext path
  rw [value?_append, value?_append, value?_under_congr hwalk, value?_under_congr hgrowth]

variable [Scale P W]

theorem Trace.Along.labelled {trace : Trace P W α} {way : Way P} (h : trace.Along way)
    {labels : List String} (hway : way.Labelled labels) : trace.choices.Labelled labels := by
  intro path hpath
  obtain ⟨value, hvalue⟩ := Option.isSome_iff_exists.mp hpath
  rw [h.at?_choices] at hvalue
  obtain ⟨visit, hvisit, heq, -⟩ := Way.exists_of_value? hvalue
  obtain ⟨label, hlabel, key, haddress⟩ := hway visit hvisit
  rw [haddress] at heq
  rcases path with _ | ⟨first, _ | ⟨second, _ | ⟨third, rest⟩⟩⟩
  · cases heq
  · simp at heq
  · simp only [List.cons_beq_cons, Bool.and_eq_true] at heq
    exact ⟨label, hlabel, second, by rw [Value.text_beq heq.1]⟩
  · simp at heq

namespace Grammar

variable {grammar : Grammar P}

theorem labelled_model {calls : Nat} {way : Way P} {t : Tree}
    (h : (grammar.model calls).Follows way t) : way.Labelled ["tree"] := by
  obtain ⟨inner, rfl, hinner⟩ := Sampler.follows_under.mp h
  refine Way.labelled_under (fun visit hvisit => ?_) List.mem_cons_self
  obtain ⟨j, name, -, haddress⟩ := (Grown.of_follows hinner).exists_key visit hvisit
  exact ⟨_, haddress⟩

/-- The ways of a proposal: a walk to a node, and a derivation unless the node is missing. -/
theorem exists_of_follows_proposal {root : Tree} {calls : Nat} {way : Way P} {result : Proposal}
    (h : (grammar.proposal root calls).Follows way result) :
    ∃ walk picked, Tree.Picked false false root 1 1 walk picked ∧ result.node = picked.node ∧
      result.index = picked.index ∧ result.depth = picked.depth ∧
      ((picked.node.shape = .empty ∧ way = walk.under (.text "pick_node") ∧
          result.subtree = picked.node) ∨
        picked.node.shape ≠ .empty ∧ ∃ rule growth, grammar.regrowthRule picked.node = .ok rule ∧
          (grammar.grow calls picked.index rule).Follows growth result.subtree ∧
          way = walk.under (.text "pick_node") ++ growth.under (.text "subtree")) := by
  obtain ⟨picked, first, second, rfl, hpick, hrest⟩ := Sampler.follows_bind.mp h
  obtain ⟨walk, rfl, hwalk⟩ := Sampler.follows_under.mp hpick
  refine ⟨walk, picked, .of_follows hwalk, ?_⟩
  split at hrest
  · next hempty =>
    obtain ⟨rfl, rfl⟩ := Sampler.follows_pure.mp hrest
    exact ⟨rfl, rfl, rfl, .inl ⟨eq_of_beq hempty, List.append_nil _, rfl⟩⟩
  · next hempty =>
    obtain ⟨rule, _, _, rfl, hrule, hlater⟩ := Sampler.follows_bind.mp hrest
    obtain ⟨rfl, hrule'⟩ := Sampler.follows_ofExcept.mp hrule
    obtain ⟨subtree, _, _, rfl, hgrown, hlast⟩ := Sampler.follows_bind.mp hlater
    obtain ⟨growth, rfl, hgrowth⟩ := Sampler.follows_under.mp hgrown
    obtain ⟨rfl, rfl⟩ := Sampler.follows_pure.mp hlast
    refine ⟨rfl, rfl, rfl, .inr ⟨fun heq => hempty (by rw [heq]; rfl), rule, growth, hrule',
      hgrowth, ?_⟩⟩
    rw [List.append_nil]
    rfl

theorem exists_walk_of_follows_proposal {root : Tree} {calls : Nat} {way : Way P}
    {result : Proposal} (h : (grammar.proposal root calls).Follows way result) :
    ∃ walk picked, Tree.Picked false false root 1 1 walk picked ∧ result.index = picked.index ∧
      ∀ visit ∈ walk, visit.under (.text "pick_node") ∈ way := by
  obtain ⟨walk, picked, hpicked, -, hindex, -, hway⟩ := exists_of_follows_proposal h
  refine ⟨walk, picked, hpicked, hindex, fun visit hvisit => ?_⟩
  have hunder : visit.under (.text "pick_node") ∈ walk.under (.text "pick_node") :=
    List.mem_map_of_mem hvisit
  rcases hway with ⟨-, rfl, -⟩ | ⟨-, _, _, -, -, rfl⟩
  · exact hunder
  · exact List.mem_append_left _ hunder

theorem labelled_proposal {root : Tree} {calls : Nat} {way : Way P} {result : Proposal}
    (h : (grammar.proposal root calls).Follows way result) :
    way.Labelled ["pick_node", "subtree"] := by
  obtain ⟨walk, picked, hpicked, -, -, -, hway⟩ := exists_of_follows_proposal h
  have hwalk : (walk.under (.text "pick_node")).Labelled ["pick_node", "subtree"] :=
    Way.labelled_under hpicked.single List.mem_cons_self
  rcases hway with ⟨-, rfl, -⟩ | ⟨-, rule, growth, -, hgrowth, rfl⟩
  · exact hwalk
  · refine List.forall_mem_append.mpr ⟨hwalk, ?_⟩
    refine Way.labelled_under (fun visit hvisit => ?_) (.tail _ List.mem_cons_self)
    obtain ⟨j, name, -, haddress⟩ := (Grown.of_follows hgrowth).exists_key visit hvisit
    exact ⟨_, haddress⟩

/-- The rest of a proposal, when its node is picked. -/
def proposeAt (grammar : Grammar P) (calls : Nat) (picked : Selection) : Sampler P Proposal :=
  if picked.node.shape == .empty then
    .pure ⟨picked.node, picked.index, picked.depth, picked.node⟩
  else (Sampler.ofExcept (grammar.regrowthRule picked.node)).bind fun rule =>
    ((grammar.grow calls picked.index rule).under (.text "subtree")).bind fun subtree =>
      .pure ⟨picked.node, picked.index, picked.depth, subtree⟩

theorem proposal_eq (root : Tree) (calls : Nat) : grammar.proposal root calls =
    ((root.select false false 1 1).under (.text "pick_node")).bind (grammar.proposeAt calls) := rfl

omit [Scale P W] in
theorem proposeAt_empty {picked : Selection} (hshape : picked.node.shape = .empty) (calls : Nat) :
    grammar.proposeAt calls picked =
      .pure ⟨picked.node, picked.index, picked.depth, picked.node⟩ := by
  rw [proposeAt, hshape]
  rfl

omit [Scale P W] in
theorem proposeAt_regrown {picked : Selection} {rule : String} (hshape : picked.node.shape ≠ .empty)
    (hrule : grammar.regrowthRule picked.node = .ok rule) (calls : Nat) :
    grammar.proposeAt calls picked =
      ((grammar.grow calls picked.index rule).under (.text "subtree")).bind fun subtree =>
        .pure ⟨picked.node, picked.index, picked.depth, subtree⟩ := by
  rw [proposeAt, if_neg fun heq => hshape (eq_of_beq heq), hrule]
  rfl

section Picked

variable {root : Tree} {walk : Way P} {picked : Selection} {rule : String}
  (hpicked : Tree.Picked false false root 1 1 walk picked) (hshape : picked.node.shape ≠ .empty)
  (hrule : grammar.regrowthRule picked.node = .ok rule)
include hpicked hshape hrule

/-- A proposal whose node is picked grows a tree for its place. -/
theorem reaches_proposal (calls : Nat) :
    (grammar.proposal root calls).Reaches (walk.under (.text "pick_node"))
      (((grammar.grow calls picked.index rule).under (.text "subtree")).bind fun subtree =>
        .pure ⟨picked.node, picked.index, picked.depth, subtree⟩) := by
  rw [← proposeAt_regrown hshape hrule, proposal_eq]
  exact (Sampler.follows_under.mpr ⟨walk, rfl, hpicked.follows⟩).bind _

theorem follows_proposal {calls : Nat} {growth : Way P} {subtree : Tree}
    (hgrown : (grammar.grow calls picked.index rule).Follows growth subtree) :
    (grammar.proposal root calls).Follows
      (walk.under (.text "pick_node") ++ growth.under (.text "subtree"))
      ⟨picked.node, picked.index, picked.depth, subtree⟩ :=
  (reaches_proposal hpicked hshape hrule calls).trans
    (Sampler.Reaches.bind (Sampler.follows_under.mpr ⟨growth, rfl, hgrown⟩) _)

theorem reaches_proposal_choose {calls : Nat} {growth : Way P} {address : Path}
    {dist : Distribution P} {next : Value → Sampler P Tree}
    (hbegun : (grammar.grow calls picked.index rule).Reaches growth (.choose address dist next)) :
    ∃ next', (grammar.proposal root calls).Reaches
      (walk.under (.text "pick_node") ++ growth.under (.text "subtree"))
      (.choose (.text "subtree" :: address) dist next') :=
  ⟨_, (reaches_proposal hpicked hshape hrule calls).trans ((hbegun.under _).bind _)⟩

end Picked

end Grammar

/-! ### Ends of proposals -/

namespace Tree

/-- A selection does not fail, unless it starts at a leaf that is excluded. -/
theorem lasts_select {leafOnly excludeRoot : Bool} {t : Tree}
    (h : t.shape.isTerminal = true → excludeRoot = false) (index depth : Int) (n : Nat) :
    (t.select leafOnly excludeRoot index depth : Sampler ℚ Selection).Lasts n := by
  induction t generalizing excludeRoot index depth n with
  | leaf | empty =>
    obtain rfl := h rfl
    rw [select_eq]
    refine (Sampler.lasts_choice (.bernoulli _) (n := n) fun done hdone => ?_).mono (Nat.le_succ n)
    -- at a leaf the walk stops with probability one
    have hstop : done.isTrue = true := by
      by_contra hgo
      have hpos := Scale.logOf_ne_bot.mp hdone
      rw [Distribution.density, if_neg hgo] at hpos
      exact lt_irrefl _ (hpos.trans_eq (sub_self _))
    rw [selectNext, if_pos hstop]
    trivial
  | branch kind left right stored ihl ihr =>
    rw [select_eq]
    refine (Sampler.lasts_choice (.bernoulli _) (n := n) fun done _ => ?_).mono (Nat.le_succ n)
    rw [selectNext]
    split
    · trivial
    refine (Sampler.lasts_choice (.bernoulli _) (n := n) fun toLeft _ => ?_).mono (Nat.le_succ n)
    split
    · exact ihl (fun _ => rfl) ..
    · exact ihr (fun _ => rfl) ..

/-- A choice of a selection is one on a walk to a node. -/
theorem exists_picked_of_reaches {leafOnly excludeRoot : Bool} {t : Tree} {index depth : Int}
    {way : Way ℚ} {address : Path} {dist : Distribution ℚ} {next : Value → Sampler ℚ Selection}
    (h : (t.select leafOnly excludeRoot index depth).Reaches way (.choose address dist next)) :
    ∃ value rest picked, Picked leafOnly excludeRoot t index depth
      (way ++ (⟨address, dist, value⟩ :: rest)) picked := by
  have htrue : (Value.bool true).isTrue = true := rfl
  induction t generalizing excludeRoot index depth way next with
  | leaf kind text stored | empty stored =>
    rw [select_eq] at h
    cases excludeRoot with
    | true => cases h
    | false =>
      cases h with
      | refl => exact ⟨.bool true, [], _, .stop rfl htrue⟩
      | choose h =>
        have hnext : Sampler.Reaches (selectNext ..) _ _ := h
        rw [selectNext] at hnext
        split at hnext <;> cases hnext
  | branch kind left right stored ihl ihr =>
    rw [select_eq] at h
    cases h with
    | refl => exact ⟨.bool true, [], _, .stop rfl htrue⟩
    | choose h =>
      have hnext : Sampler.Reaches (selectNext ..) _ _ := h
      rw [selectNext] at hnext
      split at hnext
      · cases hnext
      next hdone =>
      rw [Bool.not_eq_true] at hdone
      cases hnext with
      | refl =>
        -- the walk goes on to the left and stops there
        obtain ⟨stop, hleft⟩ : ∃ stop : ℚ, left.stopProbability leafOnly false = .ok stop := by
          cases left <;> exact ⟨_, rfl⟩
        exact ⟨.bool true, _, _, .left rfl hdone htrue (.stop hleft htrue)⟩
      | @choose _ _ toLeft _ _ _ hbelow =>
        have hpart : (if toLeft.isTrue then left.select leafOnly false (leftOf index) (depth + 1)
          else right.select leafOnly false (rightOf index) (depth + 1) :
            Sampler ℚ Selection).Reaches _ _ := hbelow
        cases hturn : toLeft.isTrue with
        | true =>
          rw [hturn] at hpart
          obtain ⟨value, rest, picked, hpicked⟩ := ihl hpart
          exact ⟨value, rest, picked, .left rfl hdone hturn hpicked⟩
        | false =>
          rw [hturn] at hpart
          obtain ⟨value, rest, picked, hpicked⟩ := ihr hpart
          exact ⟨value, rest, picked, .right rfl hdone hturn hpicked⟩

end Tree

/-! ### Orderly addresses -/

namespace Path.Orderly

theorem under {length : Nat} {addresses : List Path} (h : Path.Orderly length addresses)
    (label : String) : Path.Orderly (length + 1) (addresses.map (Value.text label :: ·)) := by
  refine ⟨Way.pairwise_under h.distinct _, fun address haddress => ?_⟩
  obtain ⟨place, hplace, rfl⟩ := List.mem_map.mp haddress
  obtain ⟨hcheck, hlength⟩ := h.keyed place hplace
  exact ⟨(Path.check_cons _ _).mpr ⟨rfl, hcheck⟩, congrArg (· + 1) hlength⟩

/-- The addresses of a walk and of a growth are orderly below their labels. -/
theorem labelled {length : Nat} {walk growth : List Path} (hwalk : Path.Orderly length walk)
    (hgrowth : Path.Orderly length growth) :
    Path.Orderly (length + 1) (walk.map (Value.text "pick_node" :: ·) ++
      growth.map (Value.text "subtree" :: ·)) := by
  have hwalk := hwalk.under "pick_node"
  have hgrowth := hgrowth.under "subtree"
  refine ⟨List.pairwise_append.mpr ⟨hwalk.distinct, hgrowth.distinct, fun a ha b hb => ?_⟩,
    List.forall_mem_append.mpr ⟨hwalk.keyed, hgrowth.keyed⟩⟩
  obtain ⟨_, -, rfl⟩ := List.mem_map.mp ha
  obtain ⟨_, -, rfl⟩ := List.mem_map.mp hb
  have hlabels : (Value.text "pick_node" == Value.text "subtree") = false := by decide
  rw [List.cons_beq_cons, hlabels, Bool.false_and]

end Path.Orderly

theorem Tree.Picked.one_le_index {leafOnly excludeRoot : Bool} {t : Tree} {depth : Int}
    {walk : Way ℚ} {picked : Selection}
    (h : Picked leafOnly excludeRoot t 1 depth walk picked) : 1 ≤ picked.index := by
  obtain ⟨steps, hindex, -⟩ := h.exists_descend
  exact hindex ▸ descend_pos le_rfl steps

/-- The choices of a walk are at addresses of one key. -/
theorem Tree.Picked.keyed {leafOnly excludeRoot : Bool} {t : Tree} {index depth : Int}
    {walk : Way ℚ} {picked : Selection}
    (h : Picked leafOnly excludeRoot t index depth walk picked) :
    ∀ address ∈ walk.addresses, address.check = .ok () ∧ address.length = 1 := by
  intro address haddress
  rcases h.address_below address haddress with ⟨d, -, rfl⟩ | ⟨j, -, rfl⟩
  · exact ⟨rfl, rfl⟩
  · exact ⟨rfl, rfl⟩

theorem Tree.Picked.orderly {leafOnly excludeRoot : Bool} {t : Tree} {index depth : Int}
    {walk : Way ℚ} {picked : Selection}
    (h : Picked leafOnly excludeRoot t index depth walk picked) (hindex : 1 ≤ index) :
    Path.Orderly 0 walk.addresses :=
  ⟨h.distinct hindex, h.keyed⟩

namespace Grammar

theorem Within.keyed {index : Int} {addresses : List Path} (h : Within index addresses) :
    ∀ address ∈ addresses, address.check = .ok () ∧ address.length = 1 := by
  intro address haddress
  obtain ⟨j, name, -, rfl⟩ := h address haddress
  exact ⟨rfl, rfl⟩

variable {grammar : Grammar ℚ}

theorem Grown.orderly {index : Int} {rule : String} {way : Way ℚ} {t : Tree}
    (h : Grown grammar index rule way t) (hnames : grammar.Distinguished) (hindex : 1 ≤ index) :
    Path.Orderly 0 way.addresses :=
  ⟨h.distinct hnames hindex, h.within.keyed⟩

theorem Begun.orderly {index : Int} {rule : String} {way : Way ℚ} {address : Path}
    {dist : Distribution ℚ} (h : Begun grammar index rule way address dist)
    (hnames : grammar.Distinguished) (hindex : 1 ≤ index) :
    Path.Orderly 0 (way.addresses ++ [address]) :=
  ⟨h.distinct hnames hindex, h.within.keyed⟩

section Proposed

variable {root : Tree} {walk growth : Way ℚ} {picked : Selection} {rule : String}
  (hpicked : Tree.Picked false false root 1 1 walk picked) (hnames : grammar.Distinguished)
include hpicked hnames

theorem Grown.orderly_proposed {t : Tree} (h : Grown grammar picked.index rule growth t) :
    Path.Orderly 1 (Way.addresses
      (walk.under (.text "pick_node") ++ growth.under (.text "subtree"))) := by
  have horderly := (hpicked.orderly le_rfl).labelled (h.orderly hnames hpicked.one_le_index)
  rwa [← Way.addresses_under, ← Way.addresses_under, ← Way.addresses_append] at horderly

theorem Begun.orderly_proposed {address : Path} {dist : Distribution ℚ}
    (h : Begun grammar picked.index rule growth address dist) :
    Path.Orderly 1 (Way.addresses
      (walk.under (.text "pick_node") ++ growth.under (.text "subtree")) ++
        [.text "subtree" :: address]) := by
  have horderly := (hpicked.orderly le_rfl).labelled (h.orderly hnames hpicked.one_le_index)
  rwa [List.map_append, ← List.append_assoc, ← Way.addresses_under, ← Way.addresses_under,
    ← Way.addresses_append] at horderly

end Proposed

theorem orderly_proposal (hnames : grammar.Distinguished) (root : Tree) (calls : Nat) :
    (grammar.proposal root calls).Orderly := by
  refine ⟨1, fun way address dist next h => ?_⟩
  rw [proposal_eq] at h
  rcases h.of_bind_choose with ⟨_, hpick⟩ | ⟨picked, _, second, rfl, hpick, hrest⟩
  · obtain ⟨inner, place, _, rfl, rfl, hselect⟩ := hpick.of_under_choose
    obtain ⟨value, rest, picked, hpicked⟩ := Tree.exists_picked_of_reaches hselect
    have hplaces := hpicked.orderly le_rfl
    have hsplit : Way.addresses (inner ++ ⟨place, dist, value⟩ :: rest) =
        (inner.addresses ++ [place]) ++ Way.addresses rest := by
      simp [Way.addresses]
    rw [hsplit] at hplaces
    have hlabelled := hplaces.left.under "pick_node"
    rwa [List.map_append, ← Way.addresses_under] at hlabelled
  obtain ⟨walk, rfl, hwalk⟩ := Sampler.follows_under.mp hpick
  have hpicked := Tree.Picked.of_follows hwalk
  by_cases hshape : picked.node.shape = .empty
  · rw [proposeAt_empty hshape] at hrest
    cases hrest
  rw [proposeAt, if_neg fun heq => hshape (eq_of_beq heq)] at hrest
  rcases hrest.of_bind_choose with ⟨_, hrule⟩ | ⟨rule, _, _, rfl, hrule, hgrows⟩
  · exact (Sampler.not_reaches_ofExcept hrule).elim
  obtain ⟨rfl, -⟩ := Sampler.follows_ofExcept.mp hrule
  rcases hgrows.of_bind_choose with ⟨_, hgrowth⟩ | ⟨subtree, _, _, rfl, -, hlast⟩
  · obtain ⟨inner, place, _, rfl, rfl, hbegun⟩ := hgrowth.of_under_choose
    exact (Begun.of_reaches hbegun).orderly_proposed hpicked hnames
  · cases hlast

/-- A proposal for a tree of the grammar does not fail before it has made as many choices as it may
nest calls. -/
theorem Ready.lasts_proposal (h : grammar.Ready) {rule : String} {root : Tree}
    (hroot : grammar.Derives rule root) (calls : Nat) :
    (grammar.proposal root calls).Lasts calls := by
  rw [proposal_eq]
  refine ((Tree.lasts_select (fun _ => rfl) 1 1 calls).under _).bind fun way picked hway => ?_
  obtain ⟨walk, rfl, hwalk⟩ := Sampler.follows_under.mp hway
  obtain ⟨steps, -, hnode⟩ := (Tree.Picked.of_follows hwalk).exists_descend
  by_cases hshape : picked.node.shape = .empty
  · rw [proposeAt_empty hshape]
    trivial
  · obtain ⟨part, hpart⟩ := hroot.exists_part hnode hshape
    obtain ⟨regrown, hregrown, hrule⟩ := h.exists_regrowth hpart
    rw [proposeAt_regrown hshape hregrown]
    exact ((h.lasts_grow calls _ hrule).under _).bind fun _ _ _ => trivial

/-- A proposal for a tree of the grammar is made, or the draws run out. -/
theorem Ready.ends_proposal (h : grammar.Ready) (hnames : grammar.Distinguished) {rule : String}
    {root : Tree} (hroot : grammar.Derives rule root) {supply : Supply ℚ}
    (hdraws : UnitDraws supply.draws) :
    ((grammar.proposal root).simulate : Act ℚ (Trace ℚ LogWeight Proposal)).Ends supply :=
  Program.ends_simulate hdraws (h.lasts_proposal hroot _) (orderly_proposal hnames root _)

end Grammar

end Deontic
