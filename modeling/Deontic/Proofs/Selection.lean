import Deontic.Proofs.Positions
import Deontic.Proofs.Way
import Deontic.Tree.Selection

/-! Selections as walks down a tree.  `Picked leafOnly excludeRoot t index depth way selection` says
that the walk from the root of `t`, which stands at an index and a level, comes to a selection;
`way` is the row of its choices.  The program `select` goes exactly these ways (`Picked.of_follows`,
`Picked.follows`).
Which index is picked depends on the values of the choices alone, and not on the tree
(`Picked.index_eq`). -/

namespace Deontic.Tree

variable {P W : Type} [Scale P W]

/-- The choice to stop at a level. -/
def stopVisit (depth : Int) (stop : P) (done : Value) : Visit P :=
  ⟨[.tuple [.text "done", .int depth]], .bernoulli stop, done⟩

/-- The choice between the parts of a node. -/
def turnVisit (index : Int) (toLeft : P) (chosen : Value) : Visit P :=
  ⟨[.tuple [.text "recurse_left", .int index]], .bernoulli toLeft, chosen⟩

/-- Walks down a tree with their choices. -/
inductive Picked (leafOnly : Bool) : Bool → Tree → Int → Int → Way P → Selection → Prop
  | stop {excludeRoot : Bool} {t : Tree} {index depth : Int} {stop : P} {done : Value}
      (hstop : t.stopProbability leafOnly excludeRoot = .ok stop) (hdone : done.isTrue = true) :
      Picked leafOnly excludeRoot t index depth [stopVisit depth stop done] ⟨t, index, depth⟩
  | left {excludeRoot : Bool} {kind : BranchKind} {left right : Tree} {stored : Extent}
      {index depth : Int} {stop : P} {done toLeft : Value} {way : Way P} {picked : Selection}
      (hstop : (branch kind left right stored).stopProbability leafOnly excludeRoot = .ok stop)
      (hdone : done.isTrue = false) (hturn : toLeft.isTrue = true)
      (hrest : Picked leafOnly false left (leftOf index) (depth + 1) way picked) :
      Picked leafOnly excludeRoot (branch kind left right stored) index depth
        (stopVisit depth stop done :: turnVisit index (leftProbability left stored) toLeft :: way)
        picked
  | right {excludeRoot : Bool} {kind : BranchKind} {left right : Tree} {stored : Extent}
      {index depth : Int} {stop : P} {done toLeft : Value} {way : Way P} {picked : Selection}
      (hstop : (branch kind left right stored).stopProbability leafOnly excludeRoot = .ok stop)
      (hdone : done.isTrue = false) (hturn : toLeft.isTrue = false)
      (hrest : Picked leafOnly false right (rightOf index) (depth + 1) way picked) :
      Picked leafOnly excludeRoot (branch kind left right stored) index depth
        (stopVisit depth stop done :: turnVisit index (leftProbability left stored) toLeft :: way)
        picked

/-- What follows when a walk does not stop at the root. -/
def selectBelow (leafOnly : Bool) (index depth : Int) : Tree → Sampler P Selection
  | branch _ left right stored =>
    (Sampler.sample (.tuple [.text "recurse_left", .int index])
      (.bernoulli (leftProbability left stored))).bind fun toLeft =>
        if toLeft.isTrue then left.select leafOnly false (leftOf index) (depth + 1)
        else right.select leafOnly false (rightOf index) (depth + 1)
  | leaf kind text stored => .fail (.notABranch (leaf kind text stored))
  | empty stored => .fail (.notABranch (empty stored))

/-- What follows the choice to stop. -/
def selectNext (leafOnly : Bool) (t : Tree) (index depth : Int) (done : Value) :
    Sampler P Selection :=
  if done.isTrue then .pure ⟨t, index, depth⟩ else selectBelow leafOnly index depth t

theorem select_eq (leafOnly excludeRoot : Bool) (t : Tree) (index depth : Int) :
    (t.select leafOnly excludeRoot index depth : Sampler P Selection) =
      (Sampler.ofExcept (t.stopProbability leafOnly excludeRoot)).bind fun stop =>
        (Sampler.sample (.tuple [.text "done", .int depth]) (.bernoulli stop)).bind
          (t.selectNext leafOnly index depth) := by
  cases t with
  | leaf | empty =>
    rw [select]
    · rfl
    · exact nofun
  | branch kind left right stored =>
    rw [select]
    rfl

theorem follows_select_stop {leafOnly excludeRoot : Bool} {t : Tree} {index depth : Int}
    {way : Way P} {picked : Selection} :
    (t.select leafOnly excludeRoot index depth).Follows way picked ↔
      ∃ stop done rest, t.stopProbability leafOnly excludeRoot = .ok stop ∧
        way = stopVisit depth stop done :: rest ∧
        (t.selectNext leafOnly index depth done).Follows rest picked := by
  rw [select_eq]
  constructor
  · intro h
    obtain ⟨stop, _, _, rfl, hstop, hrest⟩ := Sampler.follows_bind.mp h
    obtain ⟨rfl, hstop⟩ := Sampler.follows_ofExcept.mp hstop
    obtain ⟨done, _, rest, rfl, hdone, hnext⟩ := Sampler.follows_bind.mp hrest
    obtain rfl := Sampler.follows_sample.mp hdone
    exact ⟨stop, done, rest, by assumption, rfl, hnext⟩
  · rintro ⟨stop, done, rest, hstop, rfl, hnext⟩
    refine Sampler.follows_bind.mpr ⟨stop, [], _, rfl,
      Sampler.follows_ofExcept.mpr ⟨rfl, hstop⟩, ?_⟩
    exact Sampler.follows_bind.mpr ⟨done, [_], rest, rfl, Sampler.follows_sample.mpr rfl, hnext⟩

theorem follows_selectNext_of_stop {leafOnly : Bool} {t : Tree} {index depth : Int} {done : Value}
    (hdone : done.isTrue = true) {way : Way P} {picked : Selection} :
    (t.selectNext leafOnly index depth done).Follows way picked ↔
      way = [] ∧ (⟨t, index, depth⟩ : Selection) = picked := by
  rw [selectNext, if_pos hdone, Sampler.follows_pure]

theorem follows_selectNext_branch {leafOnly : Bool} {kind : BranchKind} {left right : Tree}
    {stored : Extent} {index depth : Int} {done : Value} (hdone : done.isTrue = false) {way : Way P}
    {picked : Selection} :
    ((branch kind left right stored).selectNext leafOnly index depth done).Follows way picked ↔
      ∃ toLeft rest, way = turnVisit index (leftProbability left stored) toLeft :: rest ∧
        (if toLeft.isTrue then left.select leafOnly false (leftOf index) (depth + 1)
          else right.select leafOnly false (rightOf index) (depth + 1)).Follows rest picked := by
  rw [selectNext, if_neg (by rw [hdone]; exact Bool.false_ne_true), selectBelow]
  constructor
  · intro h
    obtain ⟨toLeft, _, rest, rfl, hturn, hrest⟩ := Sampler.follows_bind.mp h
    obtain rfl := Sampler.follows_sample.mp hturn
    exact ⟨toLeft, rest, rfl, hrest⟩
  · rintro ⟨toLeft, rest, rfl, hrest⟩
    exact Sampler.follows_bind.mpr ⟨toLeft, [_], rest, rfl, Sampler.follows_sample.mpr rfl, hrest⟩

theorem Picked.of_follows {leafOnly excludeRoot : Bool} {t : Tree} {index depth : Int} {way : Way P}
    {picked : Selection} (h : (t.select leafOnly excludeRoot index depth).Follows way picked) :
    Picked leafOnly excludeRoot t index depth way picked := by
  induction t generalizing excludeRoot index depth way with
  | leaf | empty =>
    obtain ⟨stop, done, rest, hstop, rfl, hnext⟩ := follows_select_stop.mp h
    cases hdone : done.isTrue with
    | true =>
      obtain ⟨rfl, rfl⟩ := (follows_selectNext_of_stop hdone).mp hnext
      exact .stop hstop hdone
    | false =>
      rw [selectNext, hdone] at hnext
      exact (Sampler.not_follows_fail hnext).elim
  | branch kind left right stored ihl ihr =>
    obtain ⟨stop, done, rest, hstop, rfl, hnext⟩ := follows_select_stop.mp h
    cases hdone : done.isTrue with
    | true =>
      obtain ⟨rfl, rfl⟩ := (follows_selectNext_of_stop hdone).mp hnext
      exact .stop hstop hdone
    | false =>
      obtain ⟨toLeft, rest, rfl, hrest⟩ := (follows_selectNext_branch hdone).mp hnext
      cases hturn : toLeft.isTrue with
      | true => rw [hturn] at hrest; exact .left hstop hdone hturn (ihl hrest)
      | false => rw [hturn] at hrest; exact .right hstop hdone hturn (ihr hrest)

theorem Picked.follows {leafOnly excludeRoot : Bool} {t : Tree} {index depth : Int} {way : Way P}
    {picked : Selection} (h : Picked leafOnly excludeRoot t index depth way picked) :
    (t.select leafOnly excludeRoot index depth).Follows way picked := by
  induction h with
  | stop hstop hdone =>
    exact follows_select_stop.mpr ⟨_, _, [], hstop, rfl,
      (follows_selectNext_of_stop hdone).mpr ⟨rfl, rfl⟩⟩
  | left hstop hdone hturn _ ih | right hstop hdone hturn _ ih =>
    refine follows_select_stop.mpr ⟨_, _, _, hstop, rfl, ?_⟩
    refine (follows_selectNext_branch hdone).mpr ⟨_, _, rfl, ?_⟩
    rw [hturn]
    exact ih

/-- A walk comes to the node at its index. -/
theorem Picked.exists_descend {leafOnly excludeRoot : Bool} {t : Tree} {index depth : Int}
    {way : Way P} {picked : Selection}
    (h : Picked leafOnly excludeRoot t index depth way picked) :
    ∃ steps, picked.index = descend index steps ∧ t.follow? steps = some picked.node := by
  induction h with
  | stop => exact ⟨[], rfl, follow?_nil _⟩
  | left _ _ _ _ ih =>
    obtain ⟨steps, hindex, hnode⟩ := ih
    exact ⟨.left :: steps, hindex, hnode⟩
  | right _ _ _ _ ih =>
    obtain ⟨steps, hindex, hnode⟩ := ih
    exact ⟨.right :: steps, hindex, hnode⟩

theorem Picked.single {leafOnly excludeRoot : Bool} {t : Tree} {index depth : Int} {way : Way P}
    {picked : Selection} (h : Picked leafOnly excludeRoot t index depth way picked) :
    ∀ visit ∈ way, ∃ key, visit.address = [key] := by
  induction h with
  | stop => exact List.forall_mem_singleton.mpr ⟨_, rfl⟩
  | left _ _ _ _ ih | right _ _ _ _ ih =>
    exact List.forall_mem_cons.mpr ⟨⟨_, rfl⟩, List.forall_mem_cons.mpr ⟨⟨_, rfl⟩, ih⟩⟩

/-- Two walks that take different turns at one address do not agree in their values. -/
theorem turns_differ {way way' : Way P} {values : Path → Option Value}
    (hway : ∀ visit ∈ way, values visit.address = some visit.value)
    (hway' : ∀ visit ∈ way', values visit.address = some visit.value) {a b : Visit P} (ha : a ∈ way)
    (hb : b ∈ way') (haddress : a.address = b.address) (hyes : a.value.isTrue = true)
    (hno : b.value.isTrue = false) : False := by
  rw [Way.value_eq hway hway' ha hb haddress, hno] at hyes
  cases hyes

/-- Walks whose choices have the same values end at the same index. -/
theorem Picked.index_eq {leafOnly excludeRoot leafOnly' excludeRoot' : Bool} {t t' : Tree}
    {index depth : Int} {way way' : Way P} {picked picked' : Selection}
    (h : Picked leafOnly excludeRoot t index depth way picked)
    (h' : Picked leafOnly' excludeRoot' t' index depth way' picked') (values : Path → Option Value)
    (hway : ∀ visit ∈ way, values visit.address = some visit.value)
    (hway' : ∀ visit ∈ way', values visit.address = some visit.value) :
    picked.index = picked'.index := by
  -- the trees may differ, but where the walks would part one address would have two values
  induction h generalizing excludeRoot' t' way' with
  | stop _ hdone =>
    cases h' with
    | stop => rfl
    | left _ hdone' | right _ hdone' =>
      exact (turns_differ hway hway' List.mem_cons_self List.mem_cons_self rfl hdone hdone').elim
  | left _ hdone hturn _ ih =>
    cases h' with
    | stop _ hdone' =>
      exact (turns_differ hway' hway List.mem_cons_self List.mem_cons_self rfl hdone' hdone).elim
    | left _ _ _ hrest' =>
      exact ih hrest' (fun visit hvisit => hway visit (.tail _ (.tail _ hvisit)))
        (fun visit hvisit => hway' visit (.tail _ (.tail _ hvisit)))
    | right _ _ hturn' =>
      exact (turns_differ hway hway' (.tail _ List.mem_cons_self) (.tail _ List.mem_cons_self) rfl
        hturn hturn').elim
  | right _ hdone hturn _ ih =>
    cases h' with
    | stop _ hdone' =>
      exact (turns_differ hway' hway List.mem_cons_self List.mem_cons_self rfl hdone' hdone).elim
    | left _ _ hturn' =>
      exact (turns_differ hway' hway (.tail _ List.mem_cons_self) (.tail _ List.mem_cons_self) rfl
        hturn' hturn).elim
    | right _ _ _ hrest' =>
      exact ih hrest' (fun visit hvisit => hway visit (.tail _ (.tail _ hvisit)))
        (fun visit hvisit => hway' visit (.tail _ (.tail _ hvisit)))

end Deontic.Tree
