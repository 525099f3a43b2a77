import Deontic.Proofs.Drawing
import Deontic.Proofs.Positions
import Deontic.Proofs.Selection

/-! Uniform selection.  Every node of a sound tree is picked by one walk of drawable choices, and by
no other (`exists_picked`, `Picked.unique`).  The choices of that walk are read off the index of the
node (`picking`), and the probabilities on the way from the root of a tree multiply to one over the
size of the tree, whichever node is picked: the factors of each level cancel against the size of the
part where the walk goes on. -/

namespace Deontic.Tree

/-! ### The choices that pick an index -/

/-- The entry of a choice to stop at a level. -/
def stopEntry (depth : Int) (done : Bool) : Path × Value :=
  ([.tuple [.text "done", .int depth]], .bool done)

/-- The entry of a choice between the parts of a node. -/
def turnEntry (index : Int) (toLeft : Bool) : Path × Value :=
  ([.tuple [.text "recurse_left", .int index]], .bool toLeft)

/-- The choices that lead from the root to an index: at each index above it not to stop, and to turn
to the left if the way goes there. -/
def approach (i : Nat) : List (Path × Value) :=
  if i ≤ 1 then []
  else approach (i / 2) ++
    [stopEntry (i / 2).size false, turnEntry (i / 2 : Nat) (decide (i % 2 = 0))]

/-- The choices that pick an index. -/
def picking (i : Nat) : List (Path × Value) := approach i ++ [stopEntry i.size true]

/-- The choices on a way down from an index and a level. -/
def onward : Int → Int → List Side → List (Path × Value)
  | _, _, [] => []
  | index, depth, .left :: rest =>
    stopEntry depth false :: turnEntry index true :: onward (leftOf index) (depth + 1) rest
  | index, depth, .right :: rest =>
    stopEntry depth false :: turnEntry index false :: onward (rightOf index) (depth + 1) rest

theorem onward_append (index depth : Int) (first second : List Side) :
    onward index depth (first ++ second) =
      onward index depth first ++ onward (descend index first) (depth + first.length) second := by
  induction first generalizing index depth with
  | nil => simp [onward, descend]
  | cons side rest ih =>
    have hlevel : depth + ((side :: rest).length : Int) = depth + 1 + rest.length := by
      rw [List.length_cons]
      omega
    cases side with
    | left | right => rw [List.cons_append, onward, onward, descend, ih, hlevel]; rfl

/-- Read from the root down or from the index up, the choices are the same. -/
theorem onward_route {n : Nat} (h : 1 ≤ n) : onward 1 1 (route n) = approach n := by
  induction n using Nat.strongRecOn with
  | ind n ih =>
    rw [route, approach]
    split
    · rfl
    · have hhalf : 1 ≤ n / 2 := by omega
      have hlevel : (1 : Int) + (route (n / 2)).length = (n / 2).size := by
        rw [← length_route hhalf]
        omega
      rw [onward_append, ih (n / 2) (by omega) hhalf, descend_route hhalf, hlevel]
      split
      · next heven => rw [decide_eq_true heven]; rfl
      · next hodd => rw [decide_eq_false hodd]; rfl

/-! ### The walk to a node -/

theorem Sound.size_pos {t : Tree} (h : t.Sound) : 1 ≤ t.stored.size := by
  rw [h.stored_eq]
  show (1 : Int) ≤ t.count
  cases t with
  | leaf | empty => exact le_rfl
  | branch kind left right stored =>
    rw [count]
    omega

theorem Sound.size_leaf {t : Tree} {kind : LeafKind} (h : t.Sound) (hshape : t.shape = .leaf kind) :
    t.stored.size = 1 := by
  cases h with
  | leaf => rfl
  | missing | branch => cases hshape

theorem ratio_rat (a b : Int) : (Scale.ratio a b : ℚ) = a / b := rfl

theorem Sound.stopProbability_eq {t : Tree} (h : t.Sound) :
    (t.stopProbability false false : Except Fault ℚ) = .ok (1 / t.stored.size) := by
  cases h with
  | leaf | missing => simp [stopProbability, ofLeaf, Tree.missing, stored, Extent.single]
  | branch kind hleft hright =>
    simp [stopProbability, ofBranch, stored, ratio_rat]

/-- The way that does not stop at a branch, takes a turn and goes on. -/
def goOn (index depth : Int) (stop turn : ℚ) (toLeft : Bool) (way : Way ℚ) : Way ℚ :=
  stopVisit depth stop (.bool false) :: turnVisit index turn (.bool toLeft) :: way

theorem drawable_goOn {index depth : Int} {stop turn : ℚ} {toLeft : Bool} {way : Way ℚ}
    (hstop : stop < 1) (hturn : (turnVisit index turn (.bool toLeft)).Drawable)
    (hway : ∀ visit ∈ way, visit.Drawable) :
    ∀ visit ∈ goOn index depth stop turn toLeft way, visit.Drawable := by
  refine List.forall_mem_cons.mpr ⟨?_, List.forall_mem_cons.mpr ⟨hturn, hway⟩⟩
  exact Distribution.drawable_bernoulli.mpr (.inr ⟨rfl, hstop⟩)

theorem probability_goOn {index depth : Int} {stop turn : ℚ} (toLeft : Bool) (way : Way ℚ) :
    (goOn index depth stop turn toLeft way).probability =
      (1 - stop) * (if toLeft then turn else 1 - turn) * way.probability := by
  rw [goOn, Way.probability, List.map_cons, List.map_cons, List.prod_cons, List.prod_cons,
    ← mul_assoc]
  rfl

section Branch

variable (kind : BranchKind) (left right : Tree)

theorem size_ofBranch : ((ofBranch kind left right).stored.size : ℚ) =
    1 + left.stored.size + right.stored.size := by
  rw [ofBranch, stored, Extent.join]
  push_cast
  rfl

theorem leftProbability_ofBranch : (leftProbability left (ofBranch kind left right).stored : ℚ) =
    left.stored.size / ((ofBranch kind left right).stored.size - 1 : ℚ) := by
  rw [leftProbability, ratio_rat]
  push_cast
  rfl

variable {left right}

theorem one_lt_size_ofBranch (hleft : left.Sound) (hright : right.Sound) :
    (1 : ℚ) < (ofBranch kind left right).stored.size := by
  have hl : (1 : ℚ) ≤ left.stored.size := by exact_mod_cast hleft.size_pos
  have hr : (1 : ℚ) ≤ right.stored.size := by exact_mod_cast hright.size_pos
  rw [size_ofBranch]
  linarith

theorem one_sub_leftProbability (hleft : left.Sound) (hright : right.Sound) :
    1 - (leftProbability left (ofBranch kind left right).stored : ℚ) =
      right.stored.size / ((ofBranch kind left right).stored.size - 1 : ℚ) := by
  have hpos := sub_pos.mpr (one_lt_size_ofBranch kind hleft hright)
  have hrest := size_ofBranch kind left right
  rw [leftProbability_ofBranch, eq_div_iff hpos.ne', sub_mul, div_mul_cancel₀ _ hpos.ne']
  linarith

/-- What the choices at a branch and a selection in one of its parts weigh together. -/
theorem share_of_part {size part : ℚ} (hpart : 0 < part) (hsize : 1 < size) :
    (1 - 1 / size) * (part / (size - 1) * (1 / part)) = 1 / size := by
  have hsize' : size - 1 ≠ 0 := (sub_pos.mpr hsize).ne'
  have hzero : size ≠ 0 := (zero_lt_one.trans hsize).ne'
  field_simp

/-- The way that does not stop at a branch, takes a turn, and goes on. -/
def stepDown (index depth : Int) (left right : Tree) (toLeft : Bool) (way : Way ℚ) : Way ℚ :=
  stopVisit depth (1 / ((ofBranch kind left right).stored.size : ℚ)) (.bool false) ::
    turnVisit index (leftProbability left (ofBranch kind left right).stored) (.bool toLeft) :: way

/-- Both turns at a branch can be drawn. -/
theorem drawable_turn (hleft : left.Sound) (hright : right.Sound) (index : Int) (toLeft : Bool) :
    (turnVisit index (leftProbability left (ofBranch kind left right).stored)
      (.bool toLeft) : Visit ℚ).Drawable := by
  have hl : (0 : ℚ) < left.stored.size := by exact_mod_cast hleft.size_pos
  have hr : (0 : ℚ) < right.stored.size := by exact_mod_cast hright.size_pos
  have hpos := sub_pos.mpr (one_lt_size_ofBranch kind hleft hright)
  apply Distribution.drawable_bernoulli.mpr
  cases toLeft with
  | true =>
    refine .inl ⟨rfl, ?_⟩
    rw [leftProbability_ofBranch]
    exact div_pos hl hpos
  | false =>
    refine .inr ⟨rfl, sub_pos.mp ?_⟩
    rw [one_sub_leftProbability kind hleft hright]
    exact div_pos hr hpos

theorem stepDown_eq (index depth : Int) (toLeft : Bool) (way : Way ℚ) :
    stepDown kind index depth left right toLeft way =
      goOn index depth (1 / ((ofBranch kind left right).stored.size : ℚ))
        (leftProbability left (ofBranch kind left right).stored) toLeft way := rfl

theorem drawable_stepDown (hleft : left.Sound) (hright : right.Sound) (index depth : Int)
    (toLeft : Bool) {way : Way ℚ} (hway : ∀ visit ∈ way, visit.Drawable) :
    ∀ visit ∈ stepDown kind index depth left right toLeft way, visit.Drawable := by
  have hone := one_lt_size_ofBranch kind hleft hright
  have hstop := (div_lt_one (zero_lt_one.trans hone)).mpr hone
  exact drawable_goOn hstop (drawable_turn kind hleft hright index toLeft) hway

theorem probability_stepDown (hleft : left.Sound) (hright : right.Sound) (index depth : Int)
    (toLeft : Bool) {way : Way ℚ} (hway : way.probability =
      1 / ((if toLeft then left else right).stored.size : ℚ)) :
    (stepDown kind index depth left right toLeft way).probability =
      1 / (ofBranch kind left right).stored.size := by
  have hone := one_lt_size_ofBranch kind hleft hright
  have hl : (0 : ℚ) < left.stored.size := by exact_mod_cast hleft.size_pos
  have hr : (0 : ℚ) < right.stored.size := by exact_mod_cast hright.size_pos
  rw [stepDown_eq, probability_goOn, hway, mul_assoc]
  cases toLeft with
  | true =>
    rw [if_pos rfl, if_pos rfl, leftProbability_ofBranch]
    exact share_of_part hl hone
  | false =>
    rw [if_neg Bool.false_ne_true, if_neg Bool.false_ne_true,
      one_sub_leftProbability kind hleft hright]
    exact share_of_part hr hone

end Branch

/-- The walk to a node. -/
theorem exists_picked {t node : Tree} (ht : t.Sound) {steps : List Side}
    (h : t.follow? steps = some node) (index depth : Int) :
    ∃ way : Way ℚ, Picked false false t index depth way
        ⟨node, descend index steps, depth + steps.length⟩ ∧
      (∀ visit ∈ way, visit.Drawable) ∧
      way.entries = onward index depth steps ++ [stopEntry (depth + steps.length) true] ∧
      way.probability = 1 / t.stored.size := by
  have htrue : (Value.bool true).isTrue = true := rfl
  have hfalse : (Value.bool false).isTrue = false := rfl
  induction steps generalizing t index depth with
  | nil =>
    rw [follow?_nil] at h
    obtain rfl := Option.some.inj h
    have hpos : (0 : ℚ) < 1 / t.stored.size := by
      have := ht.size_pos
      exact one_div_pos.mpr (by exact_mod_cast this)
    have hdepth : depth + (([] : List Side).length : Int) = depth := by simp
    rw [hdepth]
    refine ⟨_, .stop ht.stopProbability_eq htrue, ?_, rfl, ?_⟩
    · exact List.forall_mem_singleton.mpr (Distribution.drawable_bernoulli.mpr (.inl ⟨rfl, hpos⟩))
    · simp [Way.probability, stopVisit, Distribution.density, Value.isTrue]
  | cons side rest ih =>
    cases ht with
    | leaf | missing => cases side <;> cases h
    | @branch kind left right hleft hright =>
      have hstop := (Sound.branch kind hleft hright).stopProbability_eq
      have hlevel : depth + 1 + (rest.length : Int) = depth + ((side :: rest).length : Int) := by
        rw [List.length_cons]
        omega
      cases side with
      | left =>
        obtain ⟨way, hpicked, hdrawable, hentries, hprobability⟩ :=
          ih hleft h (leftOf index) (depth + 1)
        rw [hlevel] at hpicked hentries
        refine ⟨stepDown kind index depth left right true way, .left hstop hfalse htrue hpicked,
          drawable_stepDown kind hleft hright index depth true hdrawable, ?_,
          probability_stepDown kind hleft hright index depth true hprobability⟩
        rw [stepDown, Way.entries, List.map_cons, List.map_cons, ← Way.entries, hentries]
        rfl
      | right =>
        obtain ⟨way, hpicked, hdrawable, hentries, hprobability⟩ :=
          ih hright h (rightOf index) (depth + 1)
        rw [hlevel] at hpicked hentries
        refine ⟨stepDown kind index depth left right false way, .right hstop hfalse hfalse hpicked,
          drawable_stepDown kind hleft hright index depth false hdrawable, ?_,
          probability_stepDown kind hleft hright index depth false hprobability⟩
        rw [stepDown, Way.entries, List.map_cons, List.map_cons, ← Way.entries, hentries]
        rfl

/-! ### No other walk -/

theorem Picked.index_below {P W : Type} [Scale P W] {leafOnly excludeRoot : Bool} {t : Tree}
    {index depth : Int} {way : Way P} {picked : Selection}
    (h : Picked leafOnly excludeRoot t index depth way picked) : Below index picked.index := by
  obtain ⟨steps, hindex, -⟩ := h.exists_descend
  exact ⟨steps, hindex⟩

/-- Drawable choices of the same meaning are the same choices. -/
theorem stepDown_unique {leafOnly excludeRoot : Bool} {t : Tree} {index depth : Int}
    {stop stop' turn : ℚ} {done done' toLeft toLeft' : Value} {way way' : Way ℚ}
    (hstop : t.stopProbability leafOnly excludeRoot = .ok stop)
    (hstop' : t.stopProbability leafOnly excludeRoot = .ok stop')
    (hdone : done.isTrue = done'.isTrue) (hturn : toLeft.isTrue = toLeft'.isTrue)
    (hway : ∀ visit ∈ stopVisit depth stop done :: turnVisit index turn toLeft :: way,
      visit.Drawable)
    (hway' : ∀ visit ∈ stopVisit depth stop' done' :: turnVisit index turn toLeft' :: way',
      visit.Drawable) :
    stop = stop' ∧ done = done' ∧ toLeft = toLeft' ∧ (∀ visit ∈ way, visit.Drawable) ∧
      ∀ visit ∈ way', visit.Drawable := by
  rw [List.forall_mem_cons, List.forall_mem_cons] at hway hway'
  obtain ⟨hstopped, hturned, hlater⟩ := hway
  obtain ⟨hstopped', hturned', hlater'⟩ := hway'
  obtain rfl := Except.ok.inj (hstop.symm.trans hstop')
  exact ⟨rfl, hstopped.eq_of_isTrue hstopped' hdone, hturned.eq_of_isTrue hturned' hturn, hlater,
    hlater'⟩

/-- Walks of drawable choices to one index are one walk. -/
theorem Picked.unique {leafOnly excludeRoot : Bool} {t : Tree} {index depth : Int}
    {way way' : Way ℚ} {picked picked' : Selection}
    (h : Picked leafOnly excludeRoot t index depth way picked)
    (h' : Picked leafOnly excludeRoot t index depth way' picked') (hindex : 1 ≤ index)
    (hway : ∀ visit ∈ way, visit.Drawable) (hway' : ∀ visit ∈ way', visit.Drawable)
    (heq : picked.index = picked'.index) : way = way' ∧ picked = picked' := by
  -- walks that part at a node end on different sides of it, and so at different indices
  induction h generalizing way' with
  | stop hstop hdone =>
    cases h' with
    | stop hstop' hdone' =>
      obtain rfl := Except.ok.inj (hstop.symm.trans hstop')
      obtain rfl := (hway _ List.mem_cons_self).eq_of_isTrue (hway' _ List.mem_cons_self)
        (hdone.trans hdone'.symm)
      exact ⟨rfl, rfl⟩
    | left _ _ _ hrest' => exact ((not_below_both hindex hrest'.index_below).1 heq.symm).elim
    | right _ _ _ hrest' => exact (ne_of_below_right hindex hrest'.index_below heq.symm).elim
  | left hstop hdone hturn hrest ih =>
    have hleft := hrest.index_below
    cases h' with
    | stop => exact ((not_below_both hindex hleft).1 heq).elim
    | left hstop' hdone' hturn' hrest' =>
      obtain ⟨rfl, rfl, rfl, hlater, hlater'⟩ := stepDown_unique hstop hstop'
        (hdone.trans hdone'.symm) (hturn.trans hturn'.symm) hway hway'
      obtain ⟨rfl, rfl⟩ := ih hrest' (by rw [leftOf]; omega) hlater hlater' heq
      exact ⟨rfl, rfl⟩
    | right _ _ _ hrest' =>
      rw [heq] at hleft
      exact ((not_below_both hindex hleft).2 hrest'.index_below).elim
  | right hstop hdone hturn hrest ih =>
    have hright := hrest.index_below
    cases h' with
    | stop => exact (ne_of_below_right hindex hright heq).elim
    | left _ _ _ hrest' =>
      rw [heq] at hright
      exact ((not_below_both hindex hrest'.index_below).2 hright).elim
    | right hstop' hdone' hturn' hrest' =>
      obtain ⟨rfl, rfl, rfl, hlater, hlater'⟩ := stepDown_unique hstop hstop'
        (hdone.trans hdone'.symm) (hturn.trans hturn'.symm) hway hway'
      obtain ⟨rfl, rfl⟩ := ih hrest' (by rw [rightOf]; omega) hlater hlater' heq
      exact ⟨rfl, rfl⟩

/-- A walk of drawable choices has the probability of one node among all. -/
theorem Picked.probability_eq {t : Tree} {walk : Way ℚ} {picked : Selection}
    (h : Picked false false t 1 1 walk picked) (ht : t.Sound)
    (hdrawable : ∀ visit ∈ walk, visit.Drawable) : walk.probability = 1 / t.stored.size := by
  obtain ⟨steps, hindex, hnode⟩ := h.exists_descend
  obtain ⟨way, hpicked, hdrawn, -, hprobability⟩ := exists_picked ht hnode 1 1
  obtain ⟨rfl, -⟩ := h.unique hpicked le_rfl hdrawable hdrawn hindex
  exact hprobability

/-! ### The choices of a walk -/

theorem numbered_ne {s t : String} {a b : Int} (h : s ≠ t ∨ a ≠ b) :
    (([.tuple [.text s, .int a]] : Path) == [.tuple [.text t, .int b]]) = false := by
  rw [Bool.eq_false_iff]
  intro heq
  have hkeys := (Bool.and_eq_true_iff.mp heq).1
  obtain ⟨htext, hint⟩ := Value.pair_beq_pair.mp hkeys
  rcases h with hne | hne
  · exact hne (Value.text.inj (Value.text_beq htext)).symm
  · exact hne (Value.int_beq_int.mp hint)

/-- The choices of a walk are at its levels and indices, or below. -/
theorem Picked.address_below {leafOnly excludeRoot : Bool} {t : Tree} {index depth : Int}
    {way : Way ℚ} {picked : Selection}
    (h : Picked leafOnly excludeRoot t index depth way picked) :
    ∀ address ∈ way.addresses,
      (∃ d, depth ≤ d ∧ address = [.tuple [.text "done", .int d]]) ∨
        ∃ j, Below index j ∧ address = [.tuple [.text "recurse_left", .int j]] := by
  induction h with
  | stop => exact List.forall_mem_singleton.mpr (.inl ⟨_, le_rfl, rfl⟩)
  | left _ _ _ _ ih =>
    refine List.forall_mem_cons.mpr ⟨.inl ⟨_, le_rfl, rfl⟩,
      List.forall_mem_cons.mpr ⟨.inr ⟨_, ⟨[], rfl⟩, rfl⟩, fun address haddress => ?_⟩⟩
    rcases ih address haddress with ⟨d, hd, rfl⟩ | ⟨j, ⟨steps, rfl⟩, rfl⟩
    · exact .inl ⟨d, by omega, rfl⟩
    · exact .inr ⟨_, ⟨.left :: steps, rfl⟩, rfl⟩
  | right _ _ _ _ ih =>
    refine List.forall_mem_cons.mpr ⟨.inl ⟨_, le_rfl, rfl⟩,
      List.forall_mem_cons.mpr ⟨.inr ⟨_, ⟨[], rfl⟩, rfl⟩, fun address haddress => ?_⟩⟩
    rcases ih address haddress with ⟨d, hd, rfl⟩ | ⟨j, ⟨steps, rfl⟩, rfl⟩
    · exact .inl ⟨d, by omega, rfl⟩
    · exact .inr ⟨_, ⟨.right :: steps, rfl⟩, rfl⟩

theorem Picked.address_eq {leafOnly excludeRoot : Bool} {t : Tree} {index depth : Int}
    {way : Way ℚ} {picked : Selection}
    (h : Picked leafOnly excludeRoot t index depth way picked) (hindex : 1 ≤ index) :
    ∀ address ∈ way.addresses,
      (∃ d, depth ≤ d ∧ address = [.tuple [.text "done", .int d]]) ∨
        ∃ j, index ≤ j ∧ address = [.tuple [.text "recurse_left", .int j]] := by
  intro address haddress
  rcases h.address_below address haddress with hdone | ⟨j, hj, rfl⟩
  · exact .inl hdone
  · exact .inr ⟨j, hj.le hindex, rfl⟩

/-- No address comes twice, unless the walk starts where a part has the index of the whole. -/
theorem Picked.distinct_of_ne {leafOnly excludeRoot : Bool} {t : Tree} {index depth : Int}
    {way : Way ℚ} {picked : Selection}
    (h : Picked leafOnly excludeRoot t index depth way picked) (hzero : index ≠ 0)
    (hone : index ≠ -1) : way.Distinct := by
  induction h with
  | stop => exact List.pairwise_singleton _ _
  | left _ _ _ hrest ih | right _ _ _ hrest ih =>
    have hbelow := hrest.address_below
    refine List.pairwise_cons.mpr ⟨?_, List.pairwise_cons.mpr ⟨?_,
      ih (by simp only [leftOf, rightOf]; omega) (by simp only [leftOf, rightOf]; omega)⟩⟩
    · refine List.forall_mem_cons.mpr ⟨numbered_ne (.inl (by decide)), fun address haddress => ?_⟩
      rcases hbelow address haddress with ⟨d, hd, rfl⟩ | ⟨j, -, rfl⟩
      · exact numbered_ne (.inr (by omega))
      · exact numbered_ne (.inl (by decide))
    · intro address haddress
      rcases hbelow address haddress with ⟨d, -, rfl⟩ | ⟨j, hj, rfl⟩
      · exact numbered_ne (.inl (by decide))
      · have hfar := hj.natAbs_le
        simp only [leftOf, rightOf] at hfar
        exact numbered_ne (.inr (by omega))

theorem Picked.distinct {leafOnly excludeRoot : Bool} {t : Tree} {index depth : Int}
    {way : Way ℚ} {picked : Selection}
    (h : Picked leafOnly excludeRoot t index depth way picked) (hindex : 1 ≤ index) :
    way.Distinct :=
  h.distinct_of_ne (by omega) (by omega)

theorem Picked.exists_recorded {leafOnly excludeRoot : Bool} {t : Tree} {index depth : Int}
    {way : Way ℚ} {picked : Selection}
    (h : Picked leafOnly excludeRoot t index depth way picked) (hindex : 1 ≤ index) :
    ∃ choices, Choices.empty.setAll way.entries = .ok choices := by
  apply Choices.exists_setAll_of_length 0
  intro entry hentry
  obtain ⟨visit, hvisit, rfl⟩ := List.mem_map.mp hentry
  have haddress := h.address_eq hindex _ (List.mem_map_of_mem hvisit)
  rw [show visit.entry.1 = visit.address from rfl]
  rcases haddress with ⟨d, -, hd⟩ | ⟨j, -, hj⟩
  · rw [hd]; exact ⟨rfl, rfl⟩
  · rw [hj]; exact ⟨rfl, rfl⟩

/-- **Selections are uniform.**  Of the ways of drawable choices, exactly one picks a given index of
a sound tree.  Its choices are read off the index, it comes to the node there at the level of the
index, and its probability is one over the size of the tree.  So simulation picks the index with one
trace alone. -/
theorem select_uniform {t node : Tree} (ht : t.Sound) {i : Int} (hi : t.subtreeAt i = .ok node) :
    ∃ (way : Way ℚ) (choices : Choices),
      (∀ (way' : Way ℚ) (picked : Selection),
        (t.select false false 1 1).Follows way' picked ∧ (∀ visit ∈ way', visit.Drawable) ∧
            picked.index = i ↔
          way' = way ∧ picked = ⟨node, i, i.toNat.size⟩) ∧
      way.entries = picking i.toNat ∧ way.probability = 1 / t.stored.size ∧
      Choices.empty.setAll (picking i.toNat) = .ok choices ∧
      ∀ trace : Trace ℚ LogWeight Selection,
        Program.Simulates (fun _ => t.select false false 1 1) trace ∧ trace.result.index = i ↔
          trace = ⟨fun _ => t.select false false 1 1, ⟨node, i, i.toNat.size⟩, choices,
            Scale.logOf (1 / (t.stored.size : ℚ))⟩ := by
  obtain ⟨steps, rfl, hfollow⟩ := exists_descend_of_subtreeAt hi
  obtain ⟨way, hpicked, hdrawable, hentries, hprobability⟩ := exists_picked ht hfollow 1 1
  have hpos : 1 ≤ descend 1 steps := descend_pos le_rfl steps
  have hroute : route (descend 1 steps).toNat = steps := route_descend_one steps
  have hlevel : 1 + (steps.length : Int) = (descend 1 steps).toNat.size := by
    have := length_route (n := (descend 1 steps).toNat) (by omega)
    rw [hroute] at this
    omega
  have hpicking : way.entries = picking (descend 1 steps).toNat := by
    rw [hentries, picking, ← onward_route (by omega), hroute, hlevel]
  obtain ⟨choices, hchoices⟩ := hpicked.exists_recorded le_rfl
  rw [hlevel] at hpicked
  have hunique (way' : Way ℚ) (picked : Selection) :
      (t.select false false 1 1).Follows way' picked ∧ (∀ visit ∈ way', visit.Drawable) ∧
          picked.index = descend 1 steps ↔
        way' = way ∧ picked = ⟨node, descend 1 steps, (descend 1 steps).toNat.size⟩ := by
    constructor
    · rintro ⟨hfollows, hdrawable', hindex⟩
      exact (Picked.of_follows hfollows).unique hpicked le_rfl hdrawable' hdrawable hindex
    · rintro ⟨rfl, rfl⟩
      exact ⟨hpicked.follows, hdrawable, rfl⟩
  have hfair (calls : Nat) :
      ((fun _ => t.select false false 1 1 : Program ℚ Selection) calls).Fair :=
    fair_select false false t 1 1
  have hdensity : ∀ visit ∈ way, 0 < visit.dist.density visit.value := fun visit hvisit =>
    (hdrawable visit hvisit).density_pos ((hfair 0).of_follows hpicked.follows visit hvisit)
  have hscore : Scale.logOf (1 / (t.stored.size : ℚ)) = way.score := by
    have hnonneg : (0 : ℚ) ≤ 1 / t.stored.size := by
      rw [← hprobability]
      exact List.prod_nonneg (List.forall_mem_map.mpr fun visit hvisit =>
        (hdensity visit hvisit).le)
    ext
    rw [Scale.mass_logOf hnonneg, Way.mass_score fun visit hvisit => (hdensity visit hvisit).le,
      hprobability]
  refine ⟨way, choices, hunique, hpicking, hprobability, hpicking ▸ hchoices, fun trace => ?_⟩
  rw [Program.simulates_iff hfair (.const _)]
  constructor
  · rintro ⟨⟨hprogram, way', halong, hdrawable'⟩, hindex⟩
    obtain ⟨program, result, choices', score⟩ := trace
    obtain rfl := hprogram
    obtain ⟨rfl, rfl⟩ := (hunique way' result).mp ⟨halong.follows _ le_rfl, hdrawable', hindex⟩
    obtain rfl := Except.ok.inj (halong.recorded.symm.trans hchoices)
    rw [hscore, ← halong.scored]
  · rintro rfl
    refine ⟨⟨rfl, way, ⟨fun _ _ => hpicked.follows, hpicked.distinct le_rfl, hchoices, hscore,
      fun visit hvisit => ?_⟩, hdrawable⟩, rfl⟩
    exact Scale.isImpossible_rat.mpr (Scale.logOf_ne_bot.mpr (hdensity visit hvisit))

/-- The left part of a norm of three nodes is picked with probability one third. -/
theorem select_uniform_norm :
    (ofBranch .norm (ofLeaf .colour "red") missing).Sound ∧
      (ofBranch .norm (ofLeaf .colour "red") missing).subtreeAt 2 = .ok (ofLeaf .colour "red") ∧
      ∃ way : Way ℚ, way.entries = picking 2 ∧ way.probability = 1 / 3 := by
  have hsound : (ofBranch .norm (ofLeaf .colour "red") missing).Sound :=
    .branch _ (.leaf _ _) .missing
  have hnode : (ofBranch .norm (ofLeaf .colour "red") missing).subtreeAt (descend 1 [.left]) =
      .ok (ofLeaf .colour "red") := subtreeAt_descend.mpr rfl
  obtain ⟨way, _, -, hentries, hprobability, -⟩ := select_uniform hsound hnode
  refine ⟨hsound, hnode, way, hentries, hprobability.trans ?_⟩
  show (1 : ℚ) / ((3 : Int) : ℚ) = 1 / 3
  norm_num

end Deontic.Tree
