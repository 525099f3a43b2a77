import Deontic.Proofs.Modes

/-! The outcomes of selections with flags.  The walks that can be drawn are listed from those of the
parts (`Exhausts.branch`): the one that stops at the root, if it may, and those that go on to the
left and to the right.  They come to different selections, and their probabilities sum to one.  So
do the masses of the traces that simulation gives (`exists_shares`), as long as no address comes
twice.  With leaves only every leaf has a share, and with nothing but the start excluded all other
nodes have the same one. -/

namespace Deontic.Tree

/-! ### All walks -/

/-- Exactly the walks that can be drawn, with what they select, which is never the same. -/
structure Exhausts (leafOnly excludeRoot : Bool) (t : Tree) (index depth : Int)
    (walks : List (Way ℚ × Selection)) : Prop where
  mem : ∀ walk, walk ∈ walks ↔
    Picked leafOnly excludeRoot t index depth walk.1 walk.2 ∧ ∀ visit ∈ walk.1, visit.Drawable
  single : (walks.map Prod.snd).Nodup
  total : (walks.map fun walk => walk.1.probability).sum = 1

/-- The walk that stops at once, if it can be drawn. -/
def stopping (stop : ℚ) (t : Tree) (index depth : Int) : List (Way ℚ × Selection) :=
  if 0 < stop then [([stopVisit depth stop (.bool true)], ⟨t, index, depth⟩)] else []

/-- A walk in a part as a walk in the whole. -/
def lead (index depth : Int) (stop turn : ℚ) (toLeft : Bool) (walk : Way ℚ × Selection) :
    Way ℚ × Selection :=
  (goOn index depth stop turn toLeft walk.1, walk.2)

section Stopping

variable {leafOnly excludeRoot : Bool} {t : Tree} {index depth : Int} {stop : ℚ}

theorem mem_stopping {walk : Way ℚ × Selection} : walk ∈ stopping stop t index depth ↔
    0 < stop ∧ walk = ([stopVisit depth stop (.bool true)], ⟨t, index, depth⟩) := by
  rw [stopping]
  split
  · next hpos => simp [hpos]
  · next hnot => simp [hnot]

theorem nodup_stopping : ((stopping stop t index depth).map Prod.snd).Nodup := by
  rw [stopping]
  split
  · exact List.nodup_singleton _
  · exact List.nodup_nil

theorem total_stopping (hstop : 0 ≤ stop) :
    ((stopping stop t index depth).map fun walk => walk.1.probability).sum = stop := by
  rw [stopping]
  split
  · simp [Way.probability, stopVisit, Distribution.density, Value.isTrue]
  · next hnot => exact le_antisymm hstop (not_lt.mp hnot)

theorem picked_of_stopping (hstop : t.stopProbability leafOnly excludeRoot = .ok stop)
    {walk : Way ℚ × Selection} (h : walk ∈ stopping stop t index depth) :
    Picked leafOnly excludeRoot t index depth walk.1 walk.2 ∧
      ∀ visit ∈ walk.1, visit.Drawable := by
  obtain ⟨hpos, rfl⟩ := mem_stopping.mp h
  exact ⟨.stop hstop rfl, List.forall_mem_singleton.mpr
    (Distribution.drawable_bernoulli.mpr (.inl ⟨rfl, hpos⟩))⟩

theorem stopping_of_drawable {done : Value} (hdone : done.isTrue = true)
    (h : ∀ visit ∈ [stopVisit depth stop done], visit.Drawable) :
    ([stopVisit depth stop done], ⟨t, index, depth⟩) ∈ stopping stop t index depth := by
  rcases Distribution.drawable_bernoulli.mp (h _ List.mem_cons_self) with ⟨rfl, hpos⟩ | ⟨rfl, -⟩
  · exact mem_stopping.mpr ⟨hpos, rfl⟩
  · cases hdone

/-- At a leaf there is one walk. -/
theorem Exhausts.of_terminal (hleaf : t.shape.isTerminal = true) :
    Exhausts leafOnly false t index depth (stopping 1 t index depth) := by
  have hstop : t.stopProbability leafOnly false = .ok (1 : ℚ) := by
    cases t with
    | branch => cases hleaf
    | leaf | empty => rfl
  refine ⟨fun walk => ⟨picked_of_stopping hstop, ?_⟩, nodup_stopping, total_stopping zero_le_one⟩
  obtain ⟨way, picked⟩ := walk
  rintro ⟨hpicked, hdrawable⟩
  cases hpicked with
  | stop hstop' hdone =>
    obtain rfl := Except.ok.inj (hstop.symm.trans hstop')
    exact stopping_of_drawable hdone hdrawable
  | left | right => cases hleaf

end Stopping

theorem Exhausts.exists_permits {leafOnly excludeRoot : Bool} {t : Tree} {index depth : Int}
    {walks : List (Way ℚ × Selection)} (h : Exhausts leafOnly excludeRoot t index depth walks)
    (ht : t.Sound) {picked : Selection} (hpicked : picked ∈ walks.map Prod.snd) :
    ∃ steps, Permits leafOnly excludeRoot t index depth steps picked := by
  obtain ⟨walk, hwalk, rfl⟩ := List.mem_map.mp hpicked
  obtain ⟨hpicked, hdrawable⟩ := (h.mem walk).mp hwalk
  have hpossible := hpicked.possible hdrawable
  exact ⟨_, hpicked.permits ht fun visit hvisit =>
    Scale.isImpossible_rat.mp (hpossible visit hvisit)⟩

section Branch

variable {leafOnly excludeRoot : Bool} {kind : BranchKind} {left right : Tree} {stored : Extent}
  {index depth : Int} {stop turn : ℚ} {lefts rights : List (Way ℚ × Selection)}

theorem total_lead (toLeft : Bool) (walks : List (Way ℚ × Selection)) :
    ((walks.map (lead index depth stop turn toLeft)).map fun walk => walk.1.probability).sum =
      (1 - stop) * (if toLeft then turn else 1 - turn) *
        (walks.map fun walk => walk.1.probability).sum := by
  rw [List.map_map, ← List.sum_map_mul_left]
  exact congrArg (fun masses => (walks.map masses).sum)
    (funext fun walk => probability_goOn toLeft walk.1)

theorem drawn_goOn {done toLeft : Value} {way : Way ℚ}
    (h : ∀ visit ∈ stopVisit depth stop done :: turnVisit index turn toLeft :: way,
      visit.Drawable) :
    done = .bool done.isTrue ∧ toLeft = .bool toLeft.isTrue ∧ ∀ visit ∈ way, visit.Drawable := by
  rw [List.forall_mem_cons, List.forall_mem_cons] at h
  exact ⟨h.1.eq_bool, h.2.1.eq_bool, h.2.2⟩

/-- The selections of a branch, in its parts and at its root, are different. -/
theorem nodup_branch (hl : Exhausts leafOnly false left (leftOf index) (depth + 1) lefts)
    (hr : Exhausts leafOnly false right (rightOf index) (depth + 1) rights) (hleft : left.Sound)
    (hright : right.Sound) :
    ((stopping stop (branch kind left right stored) index depth ++
      (lefts.map (lead index depth stop turn true) ++
        rights.map (lead index depth stop turn false))).map Prod.snd).Nodup := by
  have hlead (toLeft : Bool) : Prod.snd ∘ lead index depth stop turn toLeft = Prod.snd := rfl
  rw [List.map_append, List.map_append, List.map_map, List.map_map, hlead, hlead]
  refine List.nodup_append.mpr ⟨nodup_stopping,
    List.nodup_append.mpr ⟨hl.single, hr.single, ?_⟩, ?_⟩
  · rintro picked hpicked _ hpicked' rfl
    obtain ⟨steps, hpermits⟩ := hl.exists_permits hleft hpicked
    obtain ⟨steps', hpermits'⟩ := hr.exists_permits hright hpicked'
    have hlevel := hpermits.level.symm.trans hpermits'.level
    have hposition := hpermits.position.symm.trans hpermits'.position
    -- at one level the two sides have different indices
    obtain ⟨hindex, -⟩ := descend_inj_of_length (by omega) hposition
    rw [leftOf, rightOf] at hindex
    omega
  · rintro picked hstopped _ hpicked rfl
    obtain ⟨walk, hwalk, rfl⟩ := List.mem_map.mp hstopped
    obtain ⟨-, rfl⟩ := mem_stopping.mp hwalk
    -- all others are at a level further down
    have hdeeper : depth + 1 ≤ depth := by
      rcases List.mem_append.mp hpicked with hpicked | hpicked
      · obtain ⟨steps, hpermits⟩ := hl.exists_permits hleft hpicked
        exact hpermits.le_depth
      · obtain ⟨steps, hpermits⟩ := hr.exists_permits hright hpicked
        exact hpermits.le_depth
    omega

/-- The walks of a branch are those of its parts, and the one that stops. -/
theorem Exhausts.branch (hl : Exhausts leafOnly false left (leftOf index) (depth + 1) lefts)
    (hr : Exhausts leafOnly false right (rightOf index) (depth + 1) rights) (hleft : left.Sound)
    (hright : right.Sound)
    (hstop : (Tree.branch kind left right stored).stopProbability leafOnly excludeRoot = .ok stop)
    (hnonneg : 0 ≤ stop) (hone : stop < 1)
    (hturn : ∀ toLeft, (turnVisit index (leftProbability left stored) (.bool toLeft) :
      Visit ℚ).Drawable) :
    Exhausts leafOnly excludeRoot (Tree.branch kind left right stored) index depth
      (stopping stop (Tree.branch kind left right stored) index depth ++
        (lefts.map (lead index depth stop (leftProbability left stored) true) ++
          rights.map (lead index depth stop (leftProbability left stored) false))) := by
  refine ⟨fun walk => ⟨fun hwalk => ?_, ?_⟩, nodup_branch hl hr hleft hright, ?_⟩
  · rcases List.mem_append.mp hwalk with hstopped | hwalk
    · exact picked_of_stopping hstop hstopped
    rcases List.mem_append.mp hwalk with hwalk | hwalk
    · obtain ⟨later, hlater, rfl⟩ := List.mem_map.mp hwalk
      obtain ⟨hpicked, hdrawable⟩ := (hl.mem later).mp hlater
      exact ⟨.left hstop rfl rfl hpicked, drawable_goOn hone (hturn true) hdrawable⟩
    · obtain ⟨later, hlater, rfl⟩ := List.mem_map.mp hwalk
      obtain ⟨hpicked, hdrawable⟩ := (hr.mem later).mp hlater
      exact ⟨.right hstop rfl rfl hpicked, drawable_goOn hone (hturn false) hdrawable⟩
  · obtain ⟨way, picked⟩ := walk
    rintro ⟨hpicked, hdrawable⟩
    cases hpicked with
    | stop hstop' hdone =>
      obtain rfl := Except.ok.inj (hstop.symm.trans hstop')
      exact List.mem_append_left _ (stopping_of_drawable hdone hdrawable)
    | left hstop' hdone hgoes hrest =>
      obtain rfl := Except.ok.inj (hstop.symm.trans hstop')
      obtain ⟨hno, hside, hlater⟩ := drawn_goOn hdrawable
      rw [hdone] at hno
      rw [hgoes] at hside
      subst hno hside
      exact List.mem_append_right _ (List.mem_append_left _
        (List.mem_map.mpr ⟨(_, picked), (hl.mem _).mpr ⟨hrest, hlater⟩, rfl⟩))
    | right hstop' hdone hgoes hrest =>
      obtain rfl := Except.ok.inj (hstop.symm.trans hstop')
      obtain ⟨hno, hside, hlater⟩ := drawn_goOn hdrawable
      rw [hdone] at hno
      rw [hgoes] at hside
      subst hno hside
      exact List.mem_append_right _ (List.mem_append_right _
        (List.mem_map.mpr ⟨(_, picked), (hr.mem _).mpr ⟨hrest, hlater⟩, rfl⟩))
  · rw [List.map_append, List.map_append, List.sum_append, List.sum_append, total_stopping hnonneg,
      total_lead, total_lead, hl.total, hr.total, if_pos rfl, if_neg Bool.false_ne_true]
    ring

end Branch

/-- At a branch the walk may stop, but it need not. -/
theorem exists_stop (kind : BranchKind) {left right : Tree} (hleft : left.Sound)
    (hright : right.Sound) (leafOnly excludeRoot : Bool) :
    ∃ stop : ℚ, (ofBranch kind left right).stopProbability leafOnly excludeRoot = .ok stop ∧
      0 ≤ stop ∧ stop < 1 := by
  have hsize := one_lt_size_ofBranch kind hleft hright
  refine ⟨_, rfl, ?_⟩
  split
  · exact ⟨le_rfl, zero_lt_one⟩
  · exact ⟨(one_div_pos.mpr (zero_lt_one.trans hsize)).le,
      (div_lt_one (zero_lt_one.trans hsize)).mpr hsize⟩

/-- All walks can be listed, unless the start is the only node and excluded. -/
theorem Sound.exists_exhausts {t : Tree} (ht : t.Sound) {leafOnly excludeRoot : Bool}
    (hopen : t.shape.isTerminal = true → excludeRoot = false) (index depth : Int) :
    ∃ walks, Exhausts leafOnly excludeRoot t index depth walks := by
  induction ht generalizing excludeRoot index depth with
  | leaf | missing =>
    obtain rfl := hopen rfl
    exact ⟨_, .of_terminal rfl⟩
  | branch kind hleft hright ihl ihr =>
    obtain ⟨lefts, hl⟩ := @ihl false (fun _ => rfl) (leftOf index) (depth + 1)
    obtain ⟨rights, hr⟩ := @ihr false (fun _ => rfl) (rightOf index) (depth + 1)
    obtain ⟨stop, hstop, hnonneg, hone⟩ := exists_stop kind hleft hright leafOnly excludeRoot
    exact ⟨_, .branch hl hr hleft hright hstop hnonneg hone (drawable_turn kind hleft hright index)⟩

/-- A walk that can be drawn leads to every node that may be selected. -/
theorem Permits.exists_walk {leafOnly excludeRoot : Bool} {t : Tree} {index depth : Int}
    {steps : List Side} {picked : Selection}
    (h : Permits leafOnly excludeRoot t index depth steps picked) (ht : t.Sound) :
    ∃ way : Way ℚ, Picked leafOnly excludeRoot t index depth way picked ∧
      ∀ visit ∈ way, visit.Drawable := by
  induction steps generalizing excludeRoot t index depth with
  | nil =>
    obtain ⟨node, position, level⟩ := picked
    obtain ⟨hnode, hposition, hlevel, hleaf, hbelow⟩ := h
    rw [follow?_nil] at hnode
    obtain rfl := Option.some.inj hnode
    obtain rfl : position = index := hposition
    obtain rfl : level = depth := hlevel.trans (add_zero depth)
    obtain rfl : excludeRoot = false := Bool.eq_false_iff.mpr fun hroot => hbelow hroot rfl
    obtain ⟨stop, hstop⟩ : ∃ stop : ℚ, t.stopProbability leafOnly false = .ok stop := by
      cases t <;> exact ⟨_, rfl⟩
    have hpos := (ht.stop_pos_iff hstop).mpr ⟨rfl, hleaf⟩
    exact ⟨_, picked_of_stopping hstop (mem_stopping.mpr ⟨hpos, rfl⟩)⟩
  | cons side rest ih =>
    obtain ⟨hnode, hposition, hlevel, hleaf, -⟩ := h
    have hdeeper : picked.depth = depth + 1 + (rest.length : Int) := by
      rw [hlevel, List.length_cons]
      omega
    cases ht with
    | leaf | missing => cases side <;> cases hnode
    | @branch kind left right hleft hright =>
      obtain ⟨stop, hstop, -, hone⟩ := exists_stop kind hleft hright leafOnly excludeRoot
      have hturn := drawable_turn kind hleft hright index
      cases side with
      | left =>
        have hpart : Permits leafOnly false left (leftOf index) (depth + 1) rest picked :=
          ⟨hnode, hposition, hdeeper, hleaf, nofun⟩
        obtain ⟨way, hpicked, hdrawable⟩ := ih hpart hleft
        exact ⟨goOn index depth stop _ true way, .left hstop rfl rfl hpicked,
          drawable_goOn hone (hturn true) hdrawable⟩
      | right =>
        have hpart : Permits leafOnly false right (rightOf index) (depth + 1) rest picked :=
          ⟨hnode, hposition, hdeeper, hleaf, nofun⟩
        obtain ⟨way, hpicked, hdrawable⟩ := ih hpart hright
        exact ⟨goOn index depth stop _ false way, .right hstop rfl rfl hpicked,
          drawable_goOn hone (hturn false) hdrawable⟩

/-- With nothing but the start excluded, the walks to all other nodes have one probability. -/
theorem exists_other {t node : Tree} (ht : t.Sound) {steps : List Side} (hsteps : steps ≠ [])
    (hnode : t.follow? steps = some node) (index depth : Int) :
    ∃ way : Way ℚ, Picked false true t index depth way
        ⟨node, descend index steps, depth + steps.length⟩ ∧
      (∀ visit ∈ way, visit.Drawable) ∧ way.probability = 1 / ((t.stored.size : ℚ) - 1) := by
  cases steps with
  | nil => exact (hsteps rfl).elim
  | cons side rest =>
  have hlevel : depth + 1 + (rest.length : Int) = depth + ((side :: rest).length : Int) := by
    rw [List.length_cons]
    omega
  have hshare {part size : ℚ} (hpart : 0 < part) :
      (1 - 0) * (part / size) * (1 / part) = 1 / size := by
    rw [sub_zero, one_mul, div_mul_div_comm, mul_one, mul_comm size, ← div_div,
      div_self hpart.ne']
  cases ht with
  | leaf | missing => cases side <;> cases hnode
  | @branch kind left right hleft hright =>
    have hturn := drawable_turn kind hleft hright index
    cases side with
    | left =>
      obtain ⟨way, hpicked, hdrawable, -, hprobability⟩ :=
        exists_picked hleft hnode (leftOf index) (depth + 1)
      rw [hlevel] at hpicked
      refine ⟨goOn index depth 0 (leftProbability left (ofBranch kind left right).stored) true way,
        .left rfl rfl rfl hpicked, drawable_goOn zero_lt_one (hturn true) hdrawable, ?_⟩
      rw [probability_goOn, hprobability, if_pos rfl, leftProbability_ofBranch]
      exact hshare (by exact_mod_cast hleft.size_pos)
    | right =>
      obtain ⟨way, hpicked, hdrawable, -, hprobability⟩ :=
        exists_picked hright hnode (rightOf index) (depth + 1)
      rw [hlevel] at hpicked
      refine ⟨goOn index depth 0 (leftProbability left (ofBranch kind left right).stored) false way,
        .right rfl rfl rfl hpicked, drawable_goOn zero_lt_one (hturn false) hdrawable, ?_⟩
      rw [probability_goOn, hprobability, if_neg Bool.false_ne_true,
        one_sub_leftProbability kind hleft hright]
      exact hshare (by exact_mod_cast hright.size_pos)

/-! ### All traces -/

/-- The trace of a walk. -/
def traceOf (program : Program ℚ Selection) (walk : Way ℚ × Selection) :
    Trace ℚ LogWeight Selection :=
  ⟨program, walk.2, (Choices.empty.setAll walk.1.entries).toOption.getD .empty, walk.1.score⟩

section Traces

variable {leafOnly excludeRoot : Bool} {t : Tree} {index depth : Int} (hzero : index ≠ 0)
  (hone : index ≠ -1)
include hzero hone

theorem along_traceOf {walk : Way ℚ × Selection}
    (hpicked : Picked leafOnly excludeRoot t index depth walk.1 walk.2)
    (hdrawable : ∀ visit ∈ walk.1, visit.Drawable) :
    (traceOf (selector leafOnly excludeRoot t index depth) walk).Along walk.1 := by
  have hdistinct := hpicked.distinct_of_ne hzero hone
  have horderly : Path.Orderly 0 walk.1.addresses := ⟨hdistinct, hpicked.keyed⟩
  obtain ⟨choices, hset⟩ := horderly.exists_recorded
  refine ⟨fun _ _ => hpicked.follows, hdistinct, ?_, rfl, hpicked.possible hdrawable⟩
  rw [traceOf, hset]
  rfl

/-- The traces of all walks are those that simulation gives. -/
theorem Exhausts.mem_traces {walks : List (Way ℚ × Selection)}
    (h : Exhausts leafOnly excludeRoot t index depth walks)
    {trace : Trace ℚ LogWeight Selection} :
    trace ∈ walks.map (traceOf (selector leafOnly excludeRoot t index depth)) ↔
      (selector leafOnly excludeRoot t index depth).Simulates trace := by
  have hfair (calls : Nat) : (selector leafOnly excludeRoot t index depth calls).Fair :=
    fair_select leafOnly excludeRoot t index depth
  rw [Program.simulates_iff hfair (.const _)]
  constructor
  · intro htrace
    obtain ⟨walk, hwalk, rfl⟩ := List.mem_map.mp htrace
    obtain ⟨hpicked, hdrawable⟩ := (h.mem walk).mp hwalk
    exact ⟨rfl, walk.1, along_traceOf hzero hone hpicked hdrawable, hdrawable⟩
  · rintro ⟨hprogram, way, halong, hdrawable⟩
    obtain ⟨program, picked, choices, score⟩ := trace
    obtain rfl := hprogram
    have hpicked := Picked.of_follows (halong.follows _ le_rfl)
    refine List.mem_map.mpr ⟨(way, picked), (h.mem _).mpr ⟨hpicked, hdrawable⟩, ?_⟩
    have hsame : (traceOf _ (way, picked)).Along way :=
      along_traceOf hzero hone hpicked hdrawable
    have hchoices := Except.ok.inj (hsame.recorded.symm.trans halong.recorded)
    have hscore := hsame.scored.trans halong.scored.symm
    subst hchoices hscore
    rfl

/-- The mass of the trace of a walk is the probability of the walk. -/
theorem Exhausts.exists_trace {walks : List (Way ℚ × Selection)}
    (h : Exhausts leafOnly excludeRoot t index depth walks) {way : Way ℚ} {picked : Selection}
    (hpicked : Picked leafOnly excludeRoot t index depth way picked)
    (hdrawable : ∀ visit ∈ way, visit.Drawable) :
    ∃ trace ∈ walks.map (traceOf (selector leafOnly excludeRoot t index depth)),
      trace.result = picked ∧ (trace.score.mass : ℚ) = way.probability ∧
        (0 : ℚ) < trace.score.mass := by
  have halong : (traceOf (selector leafOnly excludeRoot t index depth) (way, picked)).Along way :=
    along_traceOf hzero hone hpicked hdrawable
  have hmass := halong.mass_score
  refine ⟨_, List.mem_map_of_mem ((h.mem (way, picked)).mpr ⟨hpicked, hdrawable⟩), rfl, hmass, ?_⟩
  rw [hmass]
  exact Way.probability_pos (hpicked.possible hdrawable)

end Traces

/-- All traces that a selection simulates, with their masses.  They select different nodes. -/
structure Shares (leafOnly excludeRoot : Bool) (t : Tree) (index depth : Int)
    (traces : List (Trace ℚ LogWeight Selection)) : Prop where
  mem : ∀ trace, trace ∈ traces ↔ (selector leafOnly excludeRoot t index depth).Simulates trace
  single : (traces.map fun trace => trace.result).Nodup
  total : (traces.map fun trace => (trace.score.mass : ℚ)).sum = 1
  leaves : leafOnly = true → ∀ steps leaf, t.follow? steps = some leaf →
    leaf.shape.isTerminal = true →
    ∃ trace ∈ traces, trace.result = ⟨leaf, descend index steps, depth + steps.length⟩ ∧
      (0 : ℚ) < trace.score.mass
  others : leafOnly = false → excludeRoot = true → ∀ steps node, t.follow? steps = some node →
    steps ≠ [] →
    ∃ trace ∈ traces, trace.result = ⟨node, descend index steps, depth + steps.length⟩ ∧
      (trace.score.mass : ℚ) = 1 / ((t.stored.size : ℚ) - 1)

theorem Sound.exists_shares {t : Tree} (ht : t.Sound) {leafOnly excludeRoot : Bool}
    (hopen : t.shape.isTerminal = true → excludeRoot = false) {index : Int} (hzero : index ≠ 0)
    (hone : index ≠ -1) (depth : Int) :
    ∃ traces, Shares leafOnly excludeRoot t index depth traces := by
  obtain ⟨walks, hwalks⟩ : ∃ walks, Exhausts leafOnly excludeRoot t index depth walks :=
    ht.exists_exhausts hopen index depth
  refine ⟨walks.map (traceOf (selector leafOnly excludeRoot t index depth)),
    fun trace => hwalks.mem_traces hzero hone, ?_, ?_, ?_, ?_⟩
  · rw [List.map_map]
    exact hwalks.single
  · rw [List.map_map, ← hwalks.total]
    apply congrArg List.sum
    apply List.map_congr_left
    intro walk hwalk
    obtain ⟨hpicked, hdrawable⟩ := (hwalks.mem walk).mp hwalk
    exact (along_traceOf hzero hone hpicked hdrawable).mass_score
  · rintro rfl steps leaf hleaf hterminal
    have hbelow (hroot : excludeRoot = true) : steps ≠ [] := by
      rintro rfl
      rw [follow?_nil] at hleaf
      obtain rfl := Option.some.inj hleaf
      exact Bool.false_ne_true ((hopen hterminal).symm.trans hroot)
    have hpermits : Permits true excludeRoot t index depth steps
        ⟨leaf, descend index steps, depth + steps.length⟩ :=
      ⟨hleaf, rfl, rfl, fun _ => hterminal, hbelow⟩
    obtain ⟨way, hpicked, hdrawable⟩ := hpermits.exists_walk ht
    obtain ⟨trace, hmem, hresult, -, hpos⟩ := hwalks.exists_trace hzero hone hpicked hdrawable
    exact ⟨trace, hmem, hresult, hpos⟩
  · rintro rfl rfl steps node hnode hsteps
    obtain ⟨way, hpicked, hdrawable, hprobability⟩ := exists_other ht hsteps hnode index depth
    obtain ⟨trace, hmem, hresult, hmass, -⟩ := hwalks.exists_trace hzero hone hpicked hdrawable
    exact ⟨trace, hmem, hresult, hmass.trans hprobability⟩

/-- **Selections in every mode.**  A selection fails over its tree exactly if its start is a leaf
and is excluded.  Every other selection never comes to a node where it can neither stop nor go on;
it comes to a node that the flags permit, or it lacks a value or a draw or meets a value of density
zero.  Its traces share a mass of one: with leaves only each leaf has a share, and with nothing but
the start excluded each other node has the same.  At the indices 0 and -1 there are no nodes of a
tree; a selection that starts there may also come back to an address, and nothing is said of its
traces. -/
theorem select_every_mode {t : Tree} (ht : t.Sound) (leafOnly excludeRoot : Bool)
    (index depth : Int) :
    (∀ (setting : Setting) (supply : Supply ℚ), UnitDraws supply.draws →
      ((∃ leaf, (runSelect leafOnly excludeRoot t index depth setting).Fails supply
          (.leafExcluded leaf)) ↔
        t.shape.isTerminal = true ∧ excludeRoot = true)) ∧
    (¬ (t.shape.isTerminal = true ∧ excludeRoot = true) →
      (∀ (setting : Setting) (supply : Supply ℚ), UnitDraws supply.draws →
        (∀ node, ¬ (runSelect leafOnly excludeRoot t index depth setting).Fails supply
          (.notABranch node)) ∧
        Selects leafOnly excludeRoot t index depth setting supply) ∧
      (index ≠ 0 → index ≠ -1 → ∃ traces, Shares leafOnly excludeRoot t index depth traces)) := by
  have hopens (h : ¬ (t.shape.isTerminal = true ∧ excludeRoot = true))
      (hterminal : t.shape.isTerminal = true) : excludeRoot = false :=
    Bool.eq_false_iff.mpr fun hroot => h ⟨hterminal, hroot⟩
  refine ⟨fun setting supply hdraws => ⟨?_, ?_⟩, fun h => ⟨fun setting supply hdraws => ?_, ?_⟩⟩
  · rintro ⟨leaf, hfails⟩
    by_contra h
    have hselects : Selects leafOnly excludeRoot t index depth setting supply :=
      selects ht (hopens h) hdraws
    exact hselects.not_fails (by nofun) (by nofun) hfails
  · rintro ⟨hterminal, rfl⟩
    exact ⟨t, fails_runSelect hterminal⟩
  · have hselects : Selects leafOnly excludeRoot t index depth setting supply :=
      selects ht (hopens h) hdraws
    exact ⟨fun node => hselects.not_fails (by nofun) (by nofun), hselects⟩
  · exact fun hzero hone => ht.exists_shares (hopens h) hzero hone depth

/-- A norm in a norm, of five nodes. -/
def normInNorm : Tree := ofBranch .norm (ofBranch .norm (ofLeaf .zone "1") missing) missing

theorem sound_normInNorm : normInNorm.Sound := .branch _ (.branch _ (.leaf _ _) .missing) .missing

/-- Without the root, the zone is one of four nodes that are selected with equal probability; a zone
without its root leaves nothing to select. -/
theorem select_every_mode_norm :
    normInNorm.Sound ∧ ¬ (normInNorm.shape.isTerminal = true ∧ true = true) ∧
      UnitDraws [(1 / 2 : ℚ)] ∧
      Selects false true normInNorm 1 1 .free ⟨[1 / 2], []⟩ ∧
      (∃ traces, Shares false true normInNorm 1 1 traces ∧
        ∃ trace ∈ traces, trace.result = ⟨ofLeaf .zone "1", 4, 3⟩ ∧
          (trace.score.mass : ℚ) = 1 / 4) ∧
      ∃ leaf, (runSelect false true (ofLeaf .zone "1") 1 1 .free).Fails ⟨[1 / 2], []⟩
        (.leafExcluded leaf) := by
  have hopen : ¬ (normInNorm.shape.isTerminal = true ∧ true = true) := by decide
  have hdraws : UnitDraws [(1 / 2 : ℚ)] := List.forall_mem_singleton.mpr (by norm_num)
  obtain ⟨-, hothers⟩ := select_every_mode sound_normInNorm false true 1 1
  obtain ⟨hruns, hshares⟩ := hothers hopen
  obtain ⟨traces, htraces⟩ := hshares (by decide) (by decide)
  obtain ⟨hrefused, -⟩ := select_every_mode (.leaf .zone "1") false true 1 1
  refine ⟨sound_normInNorm, hopen, hdraws, (hruns .free ⟨[1 / 2], []⟩ hdraws).2,
    ⟨traces, htraces, ?_⟩, (hrefused .free ⟨[1 / 2], []⟩ hdraws).mpr ⟨rfl, rfl⟩⟩
  obtain ⟨trace, hmem, hresult, hmass⟩ :=
    htraces.others rfl rfl [.left, .left] (ofLeaf .zone "1") rfl (List.cons_ne_nil _ _)
  refine ⟨trace, hmem, hresult, hmass.trans ?_⟩
  show (1 : ℚ) / (((5 : Int) : ℚ) - 1) = 1 / 4
  norm_num

/-- The left part of what stands at the index 0 has the index 0 as well.  So the second turn of a
walk is at the address of the first one, and there is no selection. -/
theorem select_repeats_from_zero :
    normInNorm.Sound ∧ normInNorm.shape.isTerminal = false ∧
      UnitDraws [(9 / 10 : ℚ), 0, 9 / 10, 0, 0] ∧
      (∃ fault, (runSelect false false normInNorm 0 1 .free).Fails
          ⟨[9 / 10, 0, 9 / 10, 0, 0], []⟩ fault ∧
        fault.message = "Address (('recurse_left', 0),) visited twice") ∧
      ∀ outcome rest, ¬ (runSelect false false normInNorm 0 1 .free).Yields
        ⟨[9 / 10, 0, 9 / 10, 0, 0], []⟩ outcome rest := by
  have hmessage : (((runSelect false false normInNorm 0 1 .free).run.run
      ⟨[9 / 10, 0, 9 / 10, 0, 0], []⟩).1.mapError Fault.message).map (fun _ => ()) =
        .error "Address (('recurse_left', 0),) visited twice" := by decide +kernel
  obtain ⟨fault, hfails, hfault⟩ : ∃ fault, (runSelect false false normInNorm 0 1 .free).Fails
      ⟨[9 / 10, 0, 9 / 10, 0, 0], []⟩ fault ∧
        fault.message = "Address (('recurse_left', 0),) visited twice" := by
    unfold Act.Fails
    cases hrun : (runSelect false false normInNorm 0 1 .free).run.run
        ⟨[9 / 10, 0, 9 / 10, 0, 0], []⟩ with
    | mk outcome rest =>
      rw [hrun] at hmessage
      cases outcome with
      | error fault => exact ⟨fault, ⟨rest, rfl⟩, Except.error.inj hmessage⟩
      | ok => cases hmessage
  refine ⟨sound_normInNorm, rfl, fun draw hdraw => ?_, ⟨fault, hfails, hfault⟩,
    fun _ _ => hfails.not_yields⟩
  fin_cases hdraw <;> norm_num

end Deontic.Tree
