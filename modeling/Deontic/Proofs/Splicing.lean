import Deontic.Proofs.Positions

/-! Grafts.  `Regrown new t way u` tells, step by step down the way, how `u` comes from `t` by
putting `new` at the end of the way: the nodes on the way are built anew and the parts beside it
stay.  A way that parts from it (`Apart`) leads into one of those parts, so what a graft leaves
alone, and the exchange of two grafts, follow by induction on the place where the ways part. -/

namespace Deontic.Tree

/-- The tree `u` is `t` with `new` at the end of a way. -/
inductive Regrown (new : Tree) : Tree → List Side → Tree → Prop
  | here (t : Tree) : Regrown new t [] new
  | left {kind : BranchKind} {left right u : Tree} {stored : Extent} {rest : List Side} :
      Regrown new left rest u →
      Regrown new (branch kind left right stored) (.left :: rest) (ofBranch kind u right)
  | right {kind : BranchKind} {left right u : Tree} {stored : Extent} {rest : List Side} :
      Regrown new right rest u →
      Regrown new (branch kind left right stored) (.right :: rest) (ofBranch kind left u)

theorem regrow?_eq_some {new t u : Tree} {steps : List Side} :
    regrow? new t steps = some u ↔ Regrown new t steps u := by
  constructor
  · intro h
    induction steps generalizing t u with
    | nil =>
      obtain rfl : new = u := by rwa [regrow?_nil, Option.some.injEq] at h
      exact .here t
    | cons side rest ih =>
      cases t with
      | leaf | empty => cases side <;> cases h
      | branch kind left right stored =>
        cases side with
        | left =>
          obtain ⟨part, hpart, rfl⟩ := Option.map_eq_some_iff.mp h
          exact .left (ih hpart)
        | right =>
          obtain ⟨part, hpart, rfl⟩ := Option.map_eq_some_iff.mp h
          exact .right (ih hpart)
  · intro h
    induction h with
    | here t => exact regrow?_nil new t
    | left _ ih => exact Option.map_eq_some_iff.mpr ⟨_, ih, rfl⟩
    | right _ ih => exact Option.map_eq_some_iff.mpr ⟨_, ih, rfl⟩

/-- A tree can be put wherever there is a node. -/
theorem exists_regrown {t node : Tree} {steps : List Side} (h : t.follow? steps = some node)
    (new : Tree) : ∃ u, Regrown new t steps u := by
  induction steps generalizing t with
  | nil => exact ⟨new, .here t⟩
  | cons side rest ih =>
    cases t with
    | leaf | empty => cases side <;> cases h
    | branch kind left right stored =>
      cases side with
      | left =>
        obtain ⟨u, hu⟩ := ih h
        exact ⟨_, .left hu⟩
      | right =>
        obtain ⟨u, hu⟩ := ih h
        exact ⟨_, .right hu⟩

namespace Regrown

variable {new t u : Tree} {steps : List Side}

/-- It can be put nowhere else. -/
theorem exists_node (h : Regrown new t steps u) : ∃ node, t.follow? steps = some node := by
  induction h with
  | here t => exact ⟨t, follow?_nil t⟩
  | left _ ih => exact ih
  | right _ ih => exact ih

theorem follow? (h : Regrown new t steps u) : u.follow? steps = some new := by
  induction h with
  | here t => exact follow?_nil new
  | left _ ih => exact ih
  | right _ ih => exact ih

/-- A second tree at the end of the way takes the place of the first. -/
theorem again (h : Regrown new t steps u) (other : Tree) :
    regrow? other u steps = regrow? other t steps := by
  induction h with
  | here t => rw [regrow?_nil, regrow?_nil]
  | left _ ih => exact congrArg (Option.map _) ih
  | right _ ih => exact congrArg (Option.map _) ih

/-- The size changes by what the new part has more than the old one. -/
theorem size {node : Tree} (h : Regrown new t steps u) (ht : t.Sound)
    (hnode : t.follow? steps = some node) :
    u.stored.size = t.stored.size - node.stored.size + new.stored.size := by
  induction h with
  | here t =>
    obtain rfl : t = node := by rwa [follow?_nil, Option.some.injEq] at hnode
    omega
  | left _ ih =>
    cases ht with
    | branch kind hleft hright =>
      have hsize := ih hleft hnode
      simp only [ofBranch, stored, Extent.join] at hsize ⊢
      omega
  | right _ ih =>
    cases ht with
    | branch kind hleft hright =>
      have hsize := ih hright hnode
      simp only [ofBranch, stored, Extent.join] at hsize ⊢
      omega

end Regrown

/-! ### Ways that part -/

/-- Two ways lead together for a while and then to different sides. -/
inductive Apart : List Side → List Side → Prop
  | here {side other : Side} (first second : List Side) :
      side ≠ other → Apart (side :: first) (other :: second)
  | there (side : Side) {first second : List Side} :
      Apart first second → Apart (side :: first) (side :: second)

theorem apart_of_not_prefix {first second : List Side} (h : ¬ first <+: second)
    (h' : ¬ second <+: first) : Apart first second := by
  induction first generalizing second with
  | nil => exact (h (List.nil_prefix)).elim
  | cons side rest ih =>
    cases second with
    | nil => exact (h' (List.nil_prefix)).elim
    | cons other later =>
      by_cases hside : side = other
      · subst hside
        rw [List.cons_prefix_cons] at h h'
        exact .there side (ih (fun hp => h ⟨rfl, hp⟩) fun hp => h' ⟨rfl, hp⟩)
      · exact .here rest later hside

/-- A graft changes nothing on ways that part from its own. -/
theorem Apart.follow? {new t u : Tree} {steps other : List Side} (h : Apart steps other)
    (hu : Regrown new t steps u) : u.follow? other = t.follow? other := by
  induction h generalizing t u with
  | @here side other first second hne =>
    cases hu with
    | left => cases other <;> first | rfl | exact (hne rfl).elim
    | right => cases other <;> first | rfl | exact (hne rfl).elim
  | there side _ ih =>
    cases hu with
    | left hpart => exact ih hpart
    | right hpart => exact ih hpart

/-- Grafts on ways that part can be made in either order. -/
theorem Apart.exchange {new other t u w : Tree} {first second : List Side}
    (h : Apart first second) (hu : Regrown new t first u) (hw : Regrown other u second w) :
    ∃ v, Regrown other t second v ∧ Regrown new v first w := by
  induction h generalizing t u w with
  | here _ _ hne =>
    cases hu with
    | left hleft =>
      cases hw with
      | left => exact (hne rfl).elim
      | right hright => exact ⟨_, .right hright, .left hleft⟩
    | right hright =>
      cases hw with
      | left hleft => exact ⟨_, .left hleft, .right hright⟩
      | right => exact (hne rfl).elim
  | there side _ ih =>
    cases hu with
    | left hpart =>
      cases hw with
      | left hpart' =>
        obtain ⟨v, hv, hw⟩ := ih hpart hpart'
        exact ⟨_, .left hv, .left hw⟩
    | right hpart =>
      cases hw with
      | right hpart' =>
        obtain ⟨v, hv, hw⟩ := ih hpart hpart'
        exact ⟨_, .right hv, .right hw⟩

/-! ### Grafts at indices -/

theorem replaceAt_eq_ok {t new u : Tree} {i : Int} :
    t.replaceAt i new = .ok u ↔ 1 ≤ i ∧ Regrown new t (route i.toNat) u := by
  rw [replaceAt, atIndex_eq_ok, regrow?_eq_some]

theorem subtreeAt_eq_ok {t node : Tree} {i : Int} :
    t.subtreeAt i = .ok node ↔ 1 ≤ i ∧ t.follow? (route i.toNat) = some node :=
  atIndex_eq_ok

/-- A graft fails where there is no node, and only there, with the same words. -/
theorem replaceAt_eq_error {t new : Tree} {i : Int} {fault : PositionFault} :
    t.replaceAt i new = .error fault ↔ t.subtreeAt i = .error fault := by
  have hnone : regrow? new t (route i.toNat) = none ↔ t.follow? (route i.toNat) = none := by
    constructor
    · intro h
      refine Option.eq_none_iff_forall_ne_some.mpr fun node hnode => ?_
      obtain ⟨u, hu⟩ := exists_regrown hnode new
      rw [regrow?_eq_some.mpr hu] at h
      cases h
    · intro h
      refine Option.eq_none_iff_forall_ne_some.mpr fun u hu => ?_
      obtain ⟨node, hnode⟩ := (regrow?_eq_some.mp hu).exists_node
      rw [hnode] at h
      cases h
  rw [replaceAt, subtreeAt, atIndex_eq_error, atIndex_eq_error, hnone]

theorem apart_of_not_below {i j : Int} (hi : 1 ≤ i) (hj : 1 ≤ j) (h : ¬ Below i j)
    (h' : ¬ Below j i) : Apart (route i.toNat) (route j.toNat) :=
  apart_of_not_prefix (fun hp => h ((below_iff_route hi hj).mpr hp))
    fun hp => h' ((below_iff_route hj hi).mpr hp)

theorem subtreeAt_of_graft {t new u : Tree} {i j : Int} (hu : t.replaceAt i new = .ok u)
    (h : ¬ Below i j) (h' : ¬ Below j i) : u.subtreeAt j = t.subtreeAt j := by
  obtain ⟨hi, hregrown⟩ := replaceAt_eq_ok.mp hu
  rw [subtreeAt, subtreeAt, atIndex, atIndex]
  split
  · rfl
  · next hj => rw [(apart_of_not_below hi (by omega) h h').follow? hregrown]

/-- Of two grafts apart, the one that is made first can as well be made last. -/
theorem graft_exchange {t new other u w : Tree} {i j : Int} (h : ¬ Below i j) (h' : ¬ Below j i)
    (hu : t.replaceAt i new = .ok u) (hw : u.replaceAt j other = .ok w) :
    ∃ v, t.replaceAt j other = .ok v ∧ v.replaceAt i new = .ok w := by
  obtain ⟨hi, hu⟩ := replaceAt_eq_ok.mp hu
  obtain ⟨hj, hw⟩ := replaceAt_eq_ok.mp hw
  obtain ⟨v, hv, hw⟩ := (apart_of_not_below hi hj h h').exchange hu hw
  exact ⟨v, replaceAt_eq_ok.mpr ⟨hj, hv⟩, replaceAt_eq_ok.mpr ⟨hi, hw⟩⟩

/-- The laws of a graft.  It fails just where the tree has no node.  Else the result has the new
part at the index, has on positions apart from it what the tree has, is the tree itself if the part
was there before, keeps nothing of the part if there is a second graft at the index, and has the
size of the tree less that of the old part and with that of the new one.  Grafts on positions apart
from one another give the same tree in either order. -/
theorem replaceAt_laws {t : Tree} (ht : t.Sound) (n m : Tree) (i j : Int) :
    (∀ fault, t.replaceAt i n = .error fault ↔ t.subtreeAt i = .error fault) ∧
      (∀ node, t.subtreeAt i = .ok node → ∃ u, t.replaceAt i n = .ok u ∧ u.subtreeAt i = .ok n ∧
        (¬ Below i j → ¬ Below j i → u.subtreeAt j = t.subtreeAt j) ∧
        t.replaceAt i node = .ok t ∧ u.replaceAt i m = t.replaceAt i m ∧
        u.stored.size = t.stored.size - node.stored.size + n.stored.size) ∧
      (¬ Below i j → ¬ Below j i → ∀ w,
        (∃ u, t.replaceAt i n = .ok u ∧ u.replaceAt j m = .ok w) ↔
          ∃ v, t.replaceAt j m = .ok v ∧ v.replaceAt i n = .ok w) := by
  refine ⟨fun _ => replaceAt_eq_error, fun node hnode => ?_, fun h h' w => ⟨?_, ?_⟩⟩
  · obtain ⟨hi, hfollow⟩ := subtreeAt_eq_ok.mp hnode
    obtain ⟨u, hregrown⟩ := exists_regrown hfollow n
    have hu : t.replaceAt i n = .ok u := replaceAt_eq_ok.mpr ⟨hi, hregrown⟩
    refine ⟨u, hu, subtreeAt_eq_ok.mpr ⟨hi, hregrown.follow?⟩, subtreeAt_of_graft hu, ?_, ?_,
      hregrown.size ht hfollow⟩
    · exact atIndex_eq_ok.mpr ⟨hi, ht.regrow_self hfollow⟩
    · rw [replaceAt, replaceAt, atIndex, atIndex, hregrown.again]
  · rintro ⟨u, hu, hw⟩
    exact graft_exchange h h' hu hw
  · rintro ⟨v, hv, hw⟩
    exact graft_exchange h' h hv hw

/-- A zone put for the colour of a norm leaves the zone of the norm alone. -/
theorem replaceAt_laws_norm :
    (ofBranch .norm (ofBranch .obligation (ofLeaf .colour "red") missing)
        (ofLeaf .zone "1")).Sound ∧
      ¬ Below 4 3 ∧ ¬ Below 3 4 ∧ ∃ u : Tree,
        replaceAt (ofBranch .norm (ofBranch .obligation (ofLeaf .colour "red") missing)
          (ofLeaf .zone "1")) 4 (ofLeaf .zone "2") = .ok u ∧
        u.subtreeAt 3 = .ok (ofLeaf .zone "1") := by
  have hsound : (ofBranch .norm (ofBranch .obligation (ofLeaf .colour "red") missing)
      (ofLeaf .zone "1")).Sound := .branch _ (.branch _ (.leaf ..) .missing) (.leaf ..)
  have hleft : ¬ Below 4 3 := by decide
  have hright : ¬ Below 3 4 := by decide
  obtain ⟨-, hgraft, -⟩ := replaceAt_laws hsound (ofLeaf .zone "2") missing 4 3
  obtain ⟨u, hu, -, hrest, -⟩ := hgraft _ ((@subtreeAt_descend _ _ [.left, .left]).mpr rfl)
  exact ⟨hsound, hleft, hright, u, hu,
    (hrest hleft hright).trans ((@subtreeAt_descend _ _ [.right]).mpr rfl)⟩

end Deontic.Tree
