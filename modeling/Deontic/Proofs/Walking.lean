import Deontic.Proofs.Positions

/-! Walking and addressing.  A walk lists the nodes of a tree by doubling indices on its way down,
and addressing reads a way off an index.  Both come from `nodes`, the nodes with the ways down to
them: a walk puts indices and levels for the ways (`walk_eq_map`), and a node is listed with the way
on which it is found (`mem_nodes`).  The order of the list is `Precedes` on the indices, and the
nodes of a part are those whose ways lead through it. -/

namespace Deontic.Tree

/-- The nodes of a tree with the ways down to them, in the order of a walk. -/
def nodes : Tree → List (List Side × Tree)
  | branch kind left right stored =>
    ([], branch kind left right stored) ::
      (left.nodes.map (fun node => (.left :: node.1, node.2)) ++
        right.nodes.map fun node => (.right :: node.1, node.2))
  | t => [([], t)]

/-- The entry of a walk for a node at the end of a way down. -/
def entryAt (index level : Int) (node : List Side × Tree) : Int × Int × Tree :=
  (descend index node.1, level + node.1.length, node.2)

theorem entryAt_nil (index level : Int) (t : Tree) :
    entryAt index level ([], t) = (index, level, t) := by
  rw [entryAt, descend, List.length_nil, Int.natCast_zero, Int.add_zero]

theorem entryAt_append (index level : Int) (steps : List Side) (node : List Side × Tree) :
    entryAt index level (steps ++ node.1, node.2) =
      entryAt (descend index steps) (level + steps.length) node := by
  rw [entryAt, entryAt, descend_append, List.length_append, Int.natCast_add, Int.add_assoc]

/-- A walk lists the nodes of a tree with their indices and levels. -/
theorem walk_eq_map (t : Tree) (index level : Int) :
    t.walk index level = t.nodes.map (entryAt index level) := by
  induction t generalizing index level with
  | leaf | empty => exact congrArg (fun entry => [entry]) (entryAt_nil ..).symm
  | branch kind left right stored ihl ihr =>
    have hstep (side : Side) (node : List Side × Tree) :
        entryAt index level (side :: node.1, node.2) =
          entryAt (descend index [side]) (level + 1) node :=
      entryAt_append index level [side] node
    rw [walk, nodes, List.map_cons, List.map_append, List.map_map, List.map_map, entryAt_nil, ihl,
      ihr]
    simp only [Function.comp_def, hstep]
    rfl

theorem length_nodes (t : Tree) : t.nodes.length = t.count := by
  induction t with
  | leaf | empty => rfl
  | branch kind left right stored ihl ihr =>
    rw [nodes, count, List.length_cons, List.length_append, List.length_map, List.length_map, ihl,
      ihr]
    omega

/-- A node is at the end of the way down that is listed with it. -/
theorem mem_nodes {t node : Tree} {steps : List Side} :
    (steps, node) ∈ t.nodes ↔ t.follow? steps = some node := by
  induction t generalizing steps with
  | leaf | empty =>
    rcases steps with _ | ⟨_ | _, rest⟩ <;> simp [nodes, follow?, eq_comm]
  | branch kind left right stored ihl ihr =>
    rcases steps with _ | ⟨_ | _, rest⟩ <;> simp [nodes, follow?, ihl, ihr, eq_comm]

/-! ### The order of a walk -/

/-- A node precedes those below it, and what is on its left those on its right. -/
def Precedes (i j : Int) : Prop :=
  (i ≠ j ∧ Below i j) ∨ ∃ k, 1 ≤ k ∧ Below (leftOf k) i ∧ Below (rightOf k) j

/-- Two nodes that part two positions in opposite orders are not one above the other. -/
theorem not_below_of_parted {i j k m : Int} (hk : 1 ≤ k) (hleft : Below (leftOf k) i)
    (hright : Below (rightOf k) j) (hleft' : Below (leftOf m) j) (hright' : Below (rightOf m) i) :
    ¬ Below k m := by
  intro h
  rcases h.cases_part with rfl | h | h
  · exact hleft.not_right hk hright'
  · exact (h.trans hleft'.left).not_right hk hright
  · exact hleft.not_right hk (h.trans hright'.right)

theorem Precedes.asymm {i j : Int} (hi : 1 ≤ i) (hj : 1 ≤ j) (h : Precedes i j) :
    ¬ Precedes j i := by
  rintro (⟨-, hbelow'⟩ | ⟨m, hm, hleft', hright'⟩)
  · rcases h with ⟨hne, hbelow⟩ | ⟨k, hk, hleft, hright⟩
    · exact hne (hbelow.antisymm hbelow' hi hj)
    · exact hleft.not_right hk (hright.trans hbelow')
  · rcases h with ⟨hne, hbelow⟩ | ⟨k, hk, hleft, hright⟩
    · exact hleft'.not_right hm (hright'.trans hbelow)
    · rcases below_or_below hk hm hleft.left hright'.right with h | h
      · exact not_below_of_parted hk hleft hright hleft' hright' h
      · exact not_below_of_parted hm hleft' hright' hleft hright h

/-- The nodes are listed in the order of their positions. -/
theorem pairwise_nodes (t : Tree) {index : Int} (h : 1 ≤ index) :
    t.nodes.Pairwise fun a b => Precedes (descend index a.1) (descend index b.1) := by
  induction t generalizing index with
  | leaf | empty => exact List.pairwise_singleton _ _
  | branch kind left right stored ihl ihr =>
    refine List.pairwise_cons.mpr ⟨fun node hnode => ?_, List.pairwise_append.mpr
      ⟨List.pairwise_map.mpr (ihl (by rw [leftOf]; omega)),
        List.pairwise_map.mpr (ihr (by rw [rightOf]; omega)), fun a ha b hb => ?_⟩⟩
    · refine .inl ⟨fun heq => ?_, ⟨_, rfl⟩⟩
      have hnil : [] = node.1 := descend_inj h heq
      rcases List.mem_append.mp hnode with hnode | hnode <;>
        (obtain ⟨below, -, rfl⟩ := List.mem_map.mp hnode; cases hnil)
    · obtain ⟨first, -, rfl⟩ := List.mem_map.mp ha
      obtain ⟨second, -, rfl⟩ := List.mem_map.mp hb
      exact .inr ⟨index, h, ⟨_, rfl⟩, ⟨_, rfl⟩⟩

/-- The entries of a walk come in the order of their positions, each position once. -/
theorem pairwise_walk (t : Tree) {index : Int} (h : 1 ≤ index) (level : Int) :
    (t.walk index level).Pairwise fun a b => Precedes a.1 b.1 := by
  rw [walk_eq_map, List.pairwise_map]
  exact pairwise_nodes t h

theorem one_le_of_mem_walk {t : Tree} {index level : Int} (h : 1 ≤ index) {entry : Int × Int × Tree}
    (hentry : entry ∈ t.walk index level) : 1 ≤ entry.1 := by
  rw [walk_eq_map] at hentry
  obtain ⟨node, -, rfl⟩ := List.mem_map.mp hentry
  exact descend_pos h node.1

theorem lt_iff_precedes (t : Tree) (m n : Nat) (hm : m < (t.walk 1 1).length)
    (hn : n < (t.walk 1 1).length) :
    m < n ↔ Precedes (t.walk 1 1)[m].1 (t.walk 1 1)[n].1 := by
  have hpairs := List.pairwise_iff_getElem.mp (pairwise_walk t (le_refl 1) 1)
  have hpos {entry : Int × Int × Tree} (hentry : entry ∈ t.walk 1 1) : 1 ≤ entry.1 :=
    one_le_of_mem_walk le_rfl hentry
  constructor
  · exact hpairs m n hm hn
  · intro h
    rcases lt_trichotomy m n with hlt | rfl | hlt
    · exact hlt
    · exact (h.asymm (hpos (List.getElem_mem hm)) (hpos (List.getElem_mem hm)) h).elim
    · exact (h.asymm (hpos (List.getElem_mem hm)) (hpos (List.getElem_mem hn))
        (hpairs n m hn hm hlt)).elim

theorem nodup_walk (t : Tree) : ((t.walk 1 1).map fun entry => entry.1).Nodup := by
  rw [List.Nodup, List.pairwise_map]
  refine (pairwise_walk t (le_refl 1) 1).imp_of_mem fun ha hb h heq => ?_
  rw [heq] at h
  have hpos := one_le_of_mem_walk le_rfl hb
  exact h.asymm hpos hpos h

/-! ### Entries and addresses -/

theorem mem_walk {t node : Tree} {i level : Int} :
    (i, level, node) ∈ t.walk 1 1 ↔ t.subtreeAt i = .ok node ∧ level = i.toNat.size := by
  rw [walk_eq_map, List.mem_map]
  constructor
  · rintro ⟨⟨steps, found⟩, hmem, heq⟩
    obtain ⟨rfl, hrest⟩ := Prod.mk.inj heq
    obtain ⟨rfl, rfl⟩ := Prod.mk.inj hrest
    refine ⟨subtreeAt_descend.mpr (mem_nodes.mp hmem), ?_⟩
    rw [size_descend]
    push_cast
    ring
  · rintro ⟨hnode, rfl⟩
    obtain ⟨steps, rfl, hfollow⟩ := exists_descend_of_subtreeAt hnode
    refine ⟨(steps, node), mem_nodes.mpr hfollow, ?_⟩
    rw [entryAt, size_descend]
    push_cast
    rw [add_comm]

/-- What is not in a tree is reported as no index or as no node of it. -/
theorem subtreeAt_eq_error {t : Tree} {i : Int} :
    (∀ node, t.subtreeAt i ≠ .ok node) ↔
      t.subtreeAt i = .error (if i < 1 then .notAnIndex i else .noNode i) := by
  rw [subtreeAt, atIndex]
  split
  · simp
  · cases t.follow? (route i.toNat) <;> simp

/-- The nodes of a part with their ways are those of the tree whose ways lead through it. -/
theorem nodes_filter {t part : Tree} {steps : List Side} (h : t.follow? steps = some part) :
    (t.nodes.filter fun node => decide (steps <+: node.1)) =
      part.nodes.map fun node => (steps ++ node.1, node.2) := by
  induction steps generalizing t with
  | nil =>
    obtain rfl : t = part := by rwa [follow?_nil, Option.some.injEq] at h
    simp
  | cons side rest ih =>
    cases t with
    | leaf | empty => cases side <;> cases h
    | branch kind left right stored =>
      cases side with
      | left | right =>
        simp [nodes, List.filter_map, Function.comp_def, ih h]

/-- An entry of the walk below `i`, carried over to the start `k` at the level `d`. -/
def carry (i k d : Int) (entry : Int × Int × Tree) : Int × Int × Tree :=
  (entry.1 + (k - i) * 2 ^ (entry.2.1 - i.toNat.size).toNat, d + (entry.2.1 - i.toNat.size),
    entry.2.2)

theorem carry_entryAt (k d : Int) (steps : List Side) (node : List Side × Tree) :
    carry (descend 1 steps) k d (entryAt 1 1 (steps ++ node.1, node.2)) = entryAt k d node := by
  have hlevel : (1 : Int) + steps.length + node.1.length - (descend 1 steps).toNat.size =
      node.1.length := by
    rw [size_descend]
    push_cast
    ring
  rw [entryAt_append, carry, entryAt, hlevel, Int.toNat_natCast, ← descend_eq_add, entryAt]

/-- The walk of a part is the walk below its index, carried over to the start of the part. -/
theorem walk_part {t part : Tree} {i : Int} (h : t.subtreeAt i = .ok part) (k d : Int) :
    part.walk k d = ((t.walk 1 1).filter fun entry => Below i entry.1).map (carry i k d) := by
  obtain ⟨steps, rfl, hfollow⟩ := exists_descend_of_subtreeAt h
  have hbelow (node : List Side × Tree) :
      Below (descend 1 steps) (entryAt 1 1 node).1 ↔ steps <+: node.1 :=
    below_descend_iff (le_refl 1)
  rw [walk_eq_map, walk_eq_map, List.filter_map, List.map_map]
  simp only [Function.comp_def, hbelow]
  rw [nodes_filter hfollow, List.map_map]
  simp only [Function.comp_def, carry_entryAt]

/-- Walking and addressing agree.  A walk from the root has one entry for each node of a tree, no
index twice, a node before those below it and what is on its left before what is on its right.  Its
entries are the nodes that the tree has at their indices, with the numbers of binary digits of the
indices for levels, and what is not in it cannot be addressed.  A walk of a part from any start is
what the walk of the tree has below the part, carried over to that start. -/
theorem walk_addresses (t : Tree) :
    ((t.walk 1 1).map fun entry => entry.1).Nodup ∧ (t.walk 1 1).length = t.count ∧
      (∀ m n (hm : m < (t.walk 1 1).length) (hn : n < (t.walk 1 1).length),
        m < n ↔ Precedes (t.walk 1 1)[m].1 (t.walk 1 1)[n].1) ∧
      (∀ i level node,
        (i, level, node) ∈ t.walk 1 1 ↔ t.subtreeAt i = .ok node ∧ level = i.toNat.size) ∧
      (∀ i : Int, i ∉ ((t.walk 1 1).map fun entry => entry.1) ↔
        t.subtreeAt i = .error (if i < 1 then .notAnIndex i else .noNode i)) ∧
      ∀ i part, t.subtreeAt i = .ok part → ∀ k d,
        part.walk k d = ((t.walk 1 1).filter fun entry => Below i entry.1).map (carry i k d) := by
  refine ⟨nodup_walk t, ?_, lt_iff_precedes t, fun _ _ _ => mem_walk, fun i => ?_,
    fun i part h => walk_part h⟩
  · rw [walk_eq_map, List.length_map, length_nodes]
  · rw [← subtreeAt_eq_error, List.mem_map]
    constructor
    · intro h node hnode
      exact h ⟨_, mem_walk.mpr ⟨hnode, rfl⟩, rfl⟩
    · rintro h ⟨⟨_, level, node⟩, hmem, rfl⟩
      exact h node (mem_walk.mp hmem).1

/-- The left part of a norm, walked from the index 5 at the level 3. -/
theorem walk_addresses_norm :
    (ofBranch .norm (ofBranch .obligation (ofLeaf .colour "red") missing) missing).subtreeAt 2 =
        .ok (ofBranch .obligation (ofLeaf .colour "red") missing) ∧
      (ofBranch .obligation (ofLeaf .colour "red") missing).walk 5 3 =
        ((walk (ofBranch .norm (ofBranch .obligation (ofLeaf .colour "red") missing) missing)
          1 1).filter fun entry => Below 2 entry.1).map (carry 2 5 3) := by
  have hnode : (ofBranch .norm (ofBranch .obligation (ofLeaf .colour "red") missing)
      missing).subtreeAt 2 = .ok (ofBranch .obligation (ofLeaf .colour "red") missing) :=
    (@subtreeAt_descend _ _ [.left]).mpr rfl
  obtain ⟨-, -, -, -, -, hpart⟩ :=
    walk_addresses (ofBranch .norm (ofBranch .obligation (ofLeaf .colour "red") missing) missing)
  exact ⟨hnode, hpart 2 _ hnode 5 3⟩

example : carry 2 5 3 (4, 3, ofLeaf .colour "red") = (10, 4, ofLeaf .colour "red") := rfl

end Deontic.Tree
