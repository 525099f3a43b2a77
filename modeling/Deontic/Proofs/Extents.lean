import Deontic.Proofs.Derivations
import Deontic.Proofs.Splicing

/-! Stored extents.  A check of a tree compares each node with what its parts store, and yet accepts
just the trees in which every node stores its true size and depth (`sound_iff`): wrong numbers do
not make up for one another, since the parts are checked first.  A graft stores the extents of the
nodes on its way anew, so that the result is as sound as the new part and what hangs off the way
(`Regrown.sound_iff`). -/

namespace Deontic.Tree

theorem sound_ofBranch {kind : BranchKind} {left right : Tree} :
    (ofBranch kind left right).Sound ↔ left.Sound ∧ right.Sound := by
  constructor
  · intro h
    cases h with
    | branch _ hleft hright => exact ⟨hleft, hright⟩
  · rintro ⟨hleft, hright⟩
    exact .branch kind hleft hright

/-- The parts of a sound tree are sound. -/
theorem Sound.follow? {t node : Tree} (h : t.Sound) {steps : List Side}
    (hnode : t.follow? steps = some node) : node.Sound := by
  induction steps generalizing t with
  | nil =>
    rw [follow?_nil] at hnode
    exact Option.some.inj hnode ▸ h
  | cons side rest ih =>
    cases h with
    | leaf | missing => cases side <;> cases hnode
    | branch kind hleft hright =>
      cases side with
      | left => exact ih hleft hnode
      | right => exact ih hright hnode

/-- A tree is sound if every node stores the size and the depth of the tree below it. -/
theorem sound_iff {t : Tree} :
    t.Sound ↔ ∀ steps node, t.follow? steps = some node →
      node.stored = ⟨node.count, node.height⟩ := by
  constructor
  · intro h steps node hnode
    exact (h.follow? hnode).stored_eq
  · intro h
    have hroot : t.stored = ⟨t.count, t.height⟩ := h [] t (follow?_nil t)
    induction t with
    | leaf kind text stored =>
      obtain rfl : stored = .single := hroot
      exact .leaf kind text
    | empty stored =>
      obtain rfl : stored = .single := hroot
      exact .missing
    | branch kind left right stored ihl ihr =>
      have hleft : left.Sound := ihl (fun steps => h (.left :: steps))
        (h [.left] left (follow?_nil left))
      have hright : right.Sound := ihr (fun steps => h (.right :: steps))
        (h [.right] right (follow?_nil right))
      -- With sound parts there is one extent that a node can store rightly.
      obtain rfl : stored = .join left.stored right.stored :=
        hroot.trans (Sound.branch kind hleft hright).stored_eq.symm
      exact .branch kind hleft hright

/-! ### What hangs off a way -/

/-- The second way leads along the first one to a node and then to its other part. -/
inductive Beside : List Side → List Side → Prop
  | here {side other : Side} (rest : List Side) : side ≠ other → Beside (side :: rest) [other]
  | there (side : Side) {first second : List Side} :
      Beside first second → Beside (side :: first) (side :: second)

theorem beside_iff {first second : List Side} :
    Beside first second ↔ ∃ front side other rest,
      side ≠ other ∧ first = front ++ side :: rest ∧ second = front ++ [other] := by
  constructor
  · intro h
    induction h with
    | here rest hne => exact ⟨[], _, _, rest, hne, rfl, rfl⟩
    | there side _ ih =>
      obtain ⟨front, turn, other, rest, hne, rfl, rfl⟩ := ih
      exact ⟨side :: front, turn, other, rest, hne, rfl, rfl⟩
  · rintro ⟨front, side, other, rest, hne, rfl, rfl⟩
    induction front with
    | nil => exact .here rest hne
    | cons turn front ih => exact .there turn ih

/-- A graft is sound if the new part is and all that hangs off the way. -/
theorem Regrown.sound_iff {new t u : Tree} {steps : List Side} (h : Regrown new t steps u) :
    u.Sound ↔ new.Sound ∧ ∀ other part, Beside steps other → t.follow? other = some part →
      part.Sound := by
  induction h with
  | here t => exact ⟨fun hnew => ⟨hnew, fun _ _ hbeside => nomatch hbeside⟩, fun h => h.1⟩
  | @left kind left right u stored rest _ ih =>
    rw [sound_ofBranch, ih]
    constructor
    · rintro ⟨⟨hnew, hparts⟩, hright⟩
      refine ⟨hnew, fun other part hbeside hpart => ?_⟩
      cases hbeside with
      | @here _ other _ hne =>
        cases other with
        | left => exact (hne rfl).elim
        | right => exact hright.follow? hpart
      | there _ hbeside => exact hparts _ part hbeside hpart
    · rintro ⟨hnew, hparts⟩
      exact ⟨⟨hnew, fun other part hbeside => hparts (.left :: other) part (.there _ hbeside)⟩,
        hparts [.right] right (.here rest (by decide)) (follow?_nil right)⟩
  | @right kind left right u stored rest _ ih =>
    rw [sound_ofBranch, ih]
    constructor
    · rintro ⟨hleft, hnew, hparts⟩
      refine ⟨hnew, fun other part hbeside hpart => ?_⟩
      cases hbeside with
      | @here _ other _ hne =>
        cases other with
        | left => exact hleft.follow? hpart
        | right => exact (hne rfl).elim
      | there _ hbeside => exact hparts _ part hbeside hpart
    · rintro ⟨hnew, hparts⟩
      exact ⟨hparts [.left] left (.here rest (by decide)) (follow?_nil left), hnew,
        fun other part hbeside => hparts (.right :: other) part (.there _ hbeside)⟩

/-! ### Extents at indices -/

/-- The position `j` is the other part of a node through which the way to `i` leads. -/
def HangsOff (i j : Int) : Prop :=
  ∃ k, 1 ≤ k ∧ ((Below (leftOf k) i ∧ j = rightOf k) ∨ (Below (rightOf k) i ∧ j = leftOf k))

/-- What hangs off the way to an index has the ways beside it. -/
theorem hangsOff_descend {steps : List Side} {j : Int} :
    HangsOff (descend 1 steps) j ↔ ∃ other, Beside steps other ∧ j = descend 1 other := by
  constructor
  · rintro ⟨k, hk, ⟨⟨rest, hsteps⟩, rfl⟩ | ⟨⟨rest, hsteps⟩, rfl⟩⟩
    · refine ⟨route k.toNat ++ [.right], beside_iff.mpr
        ⟨_, .left, .right, rest, by decide, descend_inj (le_refl 1) ?_, rfl⟩, ?_⟩
      · rw [hsteps, descend_append, descend_route_toNat hk, descend]
      · rw [descend_append, descend_route_toNat hk, descend, descend]
    · refine ⟨route k.toNat ++ [.left], beside_iff.mpr
        ⟨_, .right, .left, rest, by decide, descend_inj (le_refl 1) ?_, rfl⟩, ?_⟩
      · rw [hsteps, descend_append, descend_route_toNat hk, descend]
      · rw [descend_append, descend_route_toNat hk, descend, descend]
  · rintro ⟨other, hbeside, rfl⟩
    obtain ⟨front, side, turn, rest, hne, rfl, rfl⟩ := beside_iff.mp hbeside
    refine ⟨descend 1 front, descend_pos (le_refl 1) front, ?_⟩
    rw [descend_append, descend_append]
    cases side with
    | left =>
      cases turn with
      | left => exact (hne rfl).elim
      | right => exact .inl ⟨⟨rest, rfl⟩, rfl⟩
    | right =>
      cases turn with
      | left => exact .inr ⟨⟨rest, rfl⟩, rfl⟩
      | right => exact (hne rfl).elim

/-- Checking the stored extents accepts a tree if every node stores the number of the nodes below it
and its height, and no other tree.  It accepts a graft if it accepts the new part and all that hangs
off the way to it, whatever the nodes on the way had stored. -/
theorem checkStored_exact (t : Tree) :
    (t.checkStored = .ok () ↔ ∀ i node, t.subtreeAt i = .ok node →
      node.stored = ⟨node.count, node.height⟩) ∧
      ∀ i node, t.subtreeAt i = .ok node → ∀ n, ∃ u, t.replaceAt i n = .ok u ∧
        (u.checkStored = .ok () ↔ n.checkStored = .ok () ∧ ∀ j part, HangsOff i j →
          t.subtreeAt j = .ok part → part.checkStored = .ok ()) := by
  constructor
  · rw [checkStored_eq_ok, sound_iff]
    constructor
    · intro h i node hnode
      obtain ⟨steps, -, hfollow⟩ := exists_descend_of_subtreeAt hnode
      exact h steps node hfollow
    · intro h steps node hnode
      exact h _ node (subtreeAt_descend.mpr hnode)
  · intro i node hnode n
    obtain ⟨steps, rfl, hfollow⟩ := exists_descend_of_subtreeAt hnode
    obtain ⟨u, hu⟩ := exists_regrown hfollow n
    refine ⟨u, replaceAt_descend.mpr (regrow?_eq_some.mpr hu), ?_⟩
    simp only [checkStored_eq_ok, hangsOff_descend]
    rw [hu.sound_iff]
    refine and_congr_right fun _ => ⟨?_, ?_⟩
    · rintro hparts _ part ⟨other, hbeside, rfl⟩ hpart
      exact hparts other part hbeside (subtreeAt_descend.mp hpart)
    · intro hparts other part hbeside hpart
      exact hparts _ part ⟨other, hbeside, rfl⟩ (subtreeAt_descend.mpr hpart)

/-- A norm that stores wrong numbers is put right by a graft below it. -/
theorem checkStored_exact_stale :
    (branch .norm (ofLeaf .zone "1") missing ⟨5, 5⟩).checkStored =
        .error (.staleBranch .norm ⟨5, 5⟩ ⟨3, 1⟩) ∧
      (branch .norm (ofLeaf .zone "1") missing ⟨5, 5⟩).subtreeAt 2 = .ok (ofLeaf .zone "1") ∧
      ∃ u, (branch .norm (ofLeaf .zone "1") missing ⟨5, 5⟩).replaceAt 2 (ofLeaf .zone "2") = .ok u ∧
        u.checkStored = .ok () := by
  have hnode : (branch .norm (ofLeaf .zone "1") missing ⟨5, 5⟩).subtreeAt 2 =
      .ok (ofLeaf .zone "1") := (@subtreeAt_descend _ _ [.left]).mpr rfl
  obtain ⟨-, hgraft⟩ := checkStored_exact (branch .norm (ofLeaf .zone "1") missing ⟨5, 5⟩)
  obtain ⟨u, hu, hchecked⟩ := hgraft 2 _ hnode (ofLeaf .zone "2")
  refine ⟨rfl, hnode, u, hu, hchecked.mpr ⟨rfl, ?_⟩⟩
  rintro j part hj hpart
  obtain ⟨other, hbeside, rfl⟩ := (@hangsOff_descend [.left] _).mp hj
  rw [subtreeAt_descend] at hpart
  cases hbeside with
  | @here _ other _ hne =>
    cases other with
    | left => exact (hne rfl).elim
    | right =>
      obtain rfl := Option.some.inj hpart
      rfl
  | there _ hbeside => cases hbeside

end Deontic.Tree
