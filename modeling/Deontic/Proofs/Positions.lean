import Deontic.Tree.Position
import Mathlib.Data.Nat.Size
import Mathlib.Tactic.Positivity
import Mathlib.Tactic.Ring

/-! Indices and the ways down to them.  `descend index steps` is the index at the end of a way down
from an index: each step writes a binary digit behind those of the index (`descend_cons`).  It
undoes `route`, which reads the way off the index (`descend_route`, `route_descend`), so that
different ways down lead to different indices.  Halving an index leads one step up, so that it can
be decided what is below what (`below_iff`). -/

namespace Deontic.Tree

/-- The index at the end of a way down. -/
def descend : Int → List Side → Int
  | index, [] => index
  | index, .left :: rest => descend (leftOf index) rest
  | index, .right :: rest => descend (rightOf index) rest

/-- The digit that a step writes behind those of an index: the number of the part it leads to. -/
def Side.digit : Side → Nat
  | left => 0
  | right => 1

theorem Side.digit_le_one (side : Side) : side.digit ≤ 1 := by cases side <;> decide

theorem Side.digit_inj {side other : Side} (h : side.digit = other.digit) : side = other := by
  cases side <;> cases other <;> first | rfl | cases h

theorem descend_cons (index : Int) (side : Side) (rest : List Side) :
    descend index (side :: rest) = descend (2 * index + side.digit) rest := by
  cases side with
  | left => rw [descend, leftOf, Side.digit, Nat.cast_zero, add_zero]
  | right => rw [descend, rightOf, Side.digit, Nat.cast_one]

/-- `Below index j`: the position `j` is in the tree at `index`. -/
def Below (index j : Int) : Prop := ∃ steps, j = descend index steps

theorem descend_append (index : Int) (first second : List Side) :
    descend index (first ++ second) = descend (descend index first) second := by
  induction first generalizing index with
  | nil => rfl
  | cons side rest ih => cases side <;> exact ih _

theorem descend_pos {index : Int} (h : 1 ≤ index) (steps : List Side) :
    1 ≤ descend index steps := by
  induction steps generalizing index with
  | nil => exact h
  | cons side rest ih =>
    rw [descend_cons]
    exact ih (by omega)

theorem route_step {n : Nat} (h : 1 ≤ n) (side : Side) :
    route (2 * n + side.digit) = route n ++ [side] := by
  have hdigit := side.digit_le_one
  rw [route, if_neg (by omega), show (2 * n + side.digit) / 2 = n by omega,
    show (2 * n + side.digit) % 2 = side.digit by omega]
  cases side <;> rfl

/-- The route to the end of a way down ends with the steps of the way. -/
theorem route_descend {index : Int} (h : 1 ≤ index) (steps : List Side) :
    route (descend index steps).toNat = route index.toNat ++ steps := by
  induction steps generalizing index with
  | nil => rw [List.append_nil]; rfl
  | cons side rest ih =>
    have hindex : (2 * index + side.digit).toNat = 2 * index.toNat + side.digit := by omega
    rw [descend_cons, ih (by omega), hindex, route_step (by omega), List.append_assoc]
    rfl

theorem route_one : route 1 = [] := by rw [route, if_pos (by omega)]

/-- The route from the root leads to its index. -/
theorem descend_route {n : Nat} (h : 1 ≤ n) : descend 1 (route n) = n := by
  induction n using Nat.strongRecOn with
  | ind n ih =>
    rw [route]
    split
    · rw [descend]; omega
    · rw [descend_append, ih (n / 2) (by omega) (by omega)]
      split
      · rw [descend, descend, leftOf]; omega
      · rw [descend, descend, rightOf]; omega

theorem descend_route_toNat {index : Int} (h : 1 ≤ index) :
    descend 1 (route index.toNat) = index := by
  rw [descend_route (by omega)]
  omega

theorem route_descend_one (steps : List Side) : route (descend 1 steps).toNat = steps := by
  rw [route_descend (by omega), show (1 : Int).toNat = 1 from rfl, route_one, List.nil_append]

theorem size_eq_size_half {n : Nat} (h : 2 ≤ n) : n.size = (n / 2).size + 1 := by
  have hbit : Nat.bit n.bodd (n / 2) = n := by rw [← Nat.div2_val, Nat.bit_bodd_div2]
  have hsize := Nat.size_bit (b := n.bodd) (n := n / 2) (by rw [hbit]; omega)
  rwa [hbit] at hsize

theorem length_route {n : Nat} (h : 1 ≤ n) : (route n).length + 1 = n.size := by
  induction n using Nat.strongRecOn with
  | ind n ih =>
    rw [route]
    split
    · obtain rfl : n = 1 := by omega
      rfl
    · rw [size_eq_size_half (by omega), ← ih (n / 2) (by omega) (by omega), List.length_append]
      rfl

/-- The level at the end of a way down from the root. -/
theorem size_descend (steps : List Side) : (descend 1 steps).toNat.size = steps.length + 1 := by
  have hpos := descend_pos (le_refl (1 : Int)) steps
  rw [← length_route (by omega), route_descend_one]

/-- The same way down from another index. -/
theorem descend_eq_add (i k : Int) (steps : List Side) :
    descend k steps = descend i steps + (k - i) * 2 ^ steps.length := by
  induction steps generalizing i k with
  | nil => rw [List.length_nil, pow_zero, descend, descend]; ring
  | cons side rest ih =>
    rw [List.length_cons, descend_cons, descend_cons, ih (2 * i + side.digit) (2 * k + side.digit)]
    ring

/-- Different ways down lead to different indices. -/
theorem descend_inj {index : Int} (h : 1 ≤ index) {first second : List Side}
    (heq : descend index first = descend index second) : first = second := by
  have hroute := route_descend h first
  rw [heq, route_descend h second] at hroute
  exact (List.append_cancel_left hroute).symm

/-- Ways down of one length lead to one index only from one index and with the same steps. -/
theorem descend_inj_of_length {i j : Int} {first second : List Side}
    (hlength : first.length = second.length) (h : descend i first = descend j second) :
    i = j ∧ first = second := by
  induction first generalizing i j second with
  | nil =>
    obtain rfl := List.eq_nil_of_length_eq_zero hlength.symm
    exact ⟨h, rfl⟩
  | cons side rest ih =>
    cases second with
    | nil => cases hlength
    | cons other later =>
      rw [descend_cons, descend_cons] at h
      obtain ⟨hindex, rfl⟩ := ih (Nat.succ.inj hlength) h
      have hside := side.digit_le_one
      have hother := other.digit_le_one
      obtain rfl : side = other := Side.digit_inj (by omega)
      exact ⟨by omega, rfl⟩

/-- A position is below another if the way to it leads through the other. -/
theorem below_descend_iff {index : Int} (h : 1 ≤ index) {first second : List Side} :
    Below (descend index first) (descend index second) ↔ first <+: second := by
  constructor
  · rintro ⟨steps, hsteps⟩
    rw [← descend_append] at hsteps
    exact ⟨steps, (descend_inj h hsteps).symm⟩
  · rintro ⟨steps, rfl⟩
    exact ⟨steps, descend_append index first steps⟩

theorem below_iff_route {i j : Int} (hi : 1 ≤ i) (hj : 1 ≤ j) :
    Below i j ↔ route i.toNat <+: route j.toNat := by
  conv_lhs => rw [← descend_route_toNat hi, ← descend_route_toNat hj]
  exact below_descend_iff (le_refl 1)

theorem Below.trans {i j k : Int} (h : Below i j) (h' : Below j k) : Below i k := by
  obtain ⟨first, rfl⟩ := h
  obtain ⟨second, rfl⟩ := h'
  exact ⟨first ++ second, (descend_append i first second).symm⟩

theorem Below.left {i j : Int} (h : Below (leftOf i) j) : Below i j := Below.trans ⟨[.left], rfl⟩ h

theorem Below.right {i j : Int} (h : Below (rightOf i) j) : Below i j :=
  Below.trans ⟨[.right], rfl⟩ h

/-- A position below another is the other or below one of its parts. -/
theorem Below.cases_part {i j : Int} (h : Below i j) :
    j = i ∨ Below (leftOf i) j ∨ Below (rightOf i) j := by
  obtain ⟨_ | ⟨_ | _, rest⟩, rfl⟩ := h
  · exact .inl rfl
  · exact .inr (.inl ⟨rest, rfl⟩)
  · exact .inr (.inr ⟨rest, rfl⟩)

/-- Halving an index leads one step up. -/
theorem below_half (index : Int) : Below (index / 2) index := by
  rcases Int.emod_two_eq_zero_or_one index with h | h
  · exact ⟨[.left], by rw [descend, descend, leftOf]; omega⟩
  · exact ⟨[.right], by rw [descend, descend, rightOf]; omega⟩

theorem descend_ediv (index : Int) (steps : List Side) :
    descend index steps / 2 ^ steps.length = index := by
  induction steps generalizing index with
  | nil => rw [List.length_nil, pow_zero, Int.ediv_one]; rfl
  | cons side rest ih =>
    have hdigit := side.digit_le_one
    rw [List.length_cons, pow_succ, ← Int.ediv_ediv_of_nonneg (by positivity), descend_cons, ih]
    omega

theorem ediv_two_pow {j : Int} {n : Nat} (h : j.natAbs ≤ n) :
    j / 2 ^ n = if j < 0 then -1 else 0 := by
  have hlt : j.natAbs < 2 ^ n := h.trans_lt Nat.lt_two_pow_self
  have hpow : (j.natAbs : Int) < 2 ^ n := by exact_mod_cast hlt
  split
  · next hneg =>
    apply le_antisymm
    · exact Int.le_of_lt_add_one (Int.ediv_lt_of_lt_mul (by omega) (by omega))
    · exact Int.le_ediv_of_mul_le (by omega) (by omega)
  · exact Int.ediv_eq_zero_of_lt (by omega) (by omega)

/-- A position is below those to which halving its index leads. -/
theorem below_iff {i j : Int} : Below i j ↔ ∃ n ≤ j.natAbs, j / 2 ^ n = i := by
  constructor
  · rintro ⟨steps, rfl⟩
    have hdiv := descend_ediv i steps
    rcases le_total steps.length (descend i steps).natAbs with hle | hle
    · exact ⟨_, hle, hdiv⟩
    · exact ⟨_, le_rfl, by rw [ediv_two_pow le_rfl, ← ediv_two_pow hle, hdiv]⟩
  · rintro ⟨n, -, hdiv⟩
    induction n generalizing j with
    | zero => exact ⟨[], by rw [← hdiv, pow_zero, Int.ediv_one]; rfl⟩
    | succ n ih =>
      rw [pow_succ', ← Int.ediv_ediv_of_nonneg (by omega)] at hdiv
      exact (ih hdiv).trans (below_half j)

instance (i j : Int) : Decidable (Below i j) := decidable_of_iff _ below_iff.symm

/-- Further down the indices are further from zero and minus one, on both sides of them. -/
theorem Below.natAbs_le {i j : Int} (h : Below i j) : (2 * i + 1).natAbs ≤ (2 * j + 1).natAbs := by
  obtain ⟨steps, rfl⟩ := h
  induction steps generalizing i with
  | nil => exact Nat.le_refl _
  | cons side rest ih =>
    have hdigit := side.digit_le_one
    rw [descend_cons]
    exact Nat.le_trans (by omega) ih

theorem Below.le {i j : Int} (h : Below i j) (hi : 1 ≤ i) : i ≤ j := by
  obtain ⟨steps, rfl⟩ := h
  induction steps generalizing i with
  | nil => exact Int.le_refl _
  | cons side rest ih =>
    rw [descend_cons]
    exact Int.le_trans (by omega) (ih (by omega))

theorem Below.antisymm {i j : Int} (h : Below i j) (h' : Below j i) (hi : 1 ≤ i) (hj : 1 ≤ j) :
    i = j :=
  le_antisymm (h.le hi) (h'.le hj)

/-- Of two positions above a third one, one is above the other. -/
theorem below_or_below {i j k : Int} (hi : 1 ≤ i) (hj : 1 ≤ j) (h : Below i k) (h' : Below j k) :
    Below i j ∨ Below j i := by
  have hk : 1 ≤ k := hi.trans (h.le hi)
  rw [below_iff_route hi hj, below_iff_route hj hi]
  exact List.prefix_or_prefix_of_prefix ((below_iff_route hi hk).mp h)
    ((below_iff_route hj hk).mp h')

/-- No position is below two of a node and its parts at once. -/
theorem not_below_both {index j : Int} (hindex : 1 ≤ index) (hleft : Below (leftOf index) j) :
    j ≠ index ∧ ¬ Below (rightOf index) j := by
  obtain ⟨steps, rfl⟩ := hleft
  constructor
  · intro heq
    have hsame : descend index (.left :: steps) = descend index [] := heq
    cases descend_inj hindex hsame
  · rintro ⟨steps', heq⟩
    have hsame : descend index (.left :: steps) = descend index (.right :: steps') := heq
    cases descend_inj hindex hsame

/-- Nothing is below both parts of a node. -/
theorem Below.not_right {k i : Int} (hk : 1 ≤ k) (h : Below (leftOf k) i) : ¬ Below (rightOf k) i :=
  (not_below_both hk h).2

theorem ne_of_below_right {index j : Int} (hindex : 1 ≤ index) (hright : Below (rightOf index) j) :
    j ≠ index := by
  obtain ⟨steps, rfl⟩ := hright
  intro heq
  have hsame : descend index (.right :: steps) = descend index [] := heq
  cases descend_inj hindex hsame

theorem not_below_self {index : Int} (hindex : 1 ≤ index) {side : Side} {steps : List Side} :
    ¬ Below (descend index (side :: steps)) index := by
  intro h
  have hbelow : side :: steps <+: [] := (below_descend_iff hindex).mp h
  exact List.not_mem_nil (hbelow.subset List.mem_cons_self)

/-- The positions on the two sides of a node are apart. -/
theorem not_below_other {index : Int} (hindex : 1 ≤ index) {side other : Side} (hne : side ≠ other)
    {steps later : List Side} :
    ¬ Below (descend index (side :: steps)) (descend index (other :: later)) := by
  rw [below_descend_iff hindex, List.cons_prefix_cons]
  exact fun h => hne h.1

theorem atIndex_eq_ok {index : Int} {find : List Side → Option Tree} {found : Tree} :
    atIndex index find = .ok found ↔ 1 ≤ index ∧ find (route index.toNat) = some found := by
  rw [atIndex]
  split
  · next h => simp [Int.not_le.mpr h]
  · next h => cases find (route index.toNat) <;> simp [Int.not_lt.mp h]

theorem atIndex_eq_error {index : Int} {find : List Side → Option Tree} {fault : PositionFault} :
    atIndex index find = .error fault ↔
      (index < 1 ∧ fault = .notAnIndex index) ∨
        (1 ≤ index ∧ find (route index.toNat) = none ∧ fault = .noNode index) := by
  rw [atIndex]
  split
  · next h => simp [h, Int.not_le.mpr h, eq_comm]
  · next h => cases find (route index.toNat) <;> simp [h, Int.not_lt.mp h, eq_comm]

theorem atIndex_descend {steps : List Side} {find : List Side → Option Tree} {found : Tree} :
    atIndex (descend 1 steps) find = .ok found ↔ find steps = some found := by
  rw [atIndex_eq_ok, route_descend_one]
  exact and_iff_right (descend_pos (le_refl 1) steps)

/-- The tree at an index is at the end of the way down to it. -/
theorem subtreeAt_descend {t found : Tree} {steps : List Side} :
    t.subtreeAt (descend 1 steps) = .ok found ↔ t.follow? steps = some found :=
  atIndex_descend

theorem replaceAt_descend {t new grown : Tree} {steps : List Side} :
    t.replaceAt (descend 1 steps) new = .ok grown ↔ regrow? new t steps = some grown :=
  atIndex_descend

/-- A sound tree with one of its own parts put where the part is does not change. -/
theorem Sound.regrow_self {t node : Tree} (h : t.Sound) {steps : List Side}
    (hnode : t.follow? steps = some node) : regrow? node t steps = some t := by
  induction steps generalizing t with
  | nil =>
    rw [follow?_nil] at hnode
    rw [regrow?_nil, hnode]
  | cons side rest ih =>
    cases h with
    | leaf => cases side <;> cases hnode
    | missing => cases side <;> cases hnode
    | branch kind hleft hright =>
      cases side with
      | left =>
        show (regrow? node _ rest).map _ = _
        rw [ih hleft hnode]
        rfl
      | right =>
        show (regrow? node _ rest).map _ = _
        rw [ih hright hnode]
        rfl

theorem exists_descend_of_subtreeAt {t found : Tree} {index : Int}
    (h : t.subtreeAt index = .ok found) :
    ∃ steps, index = descend 1 steps ∧ t.follow? steps = some found := by
  obtain ⟨hindex, hfound⟩ := atIndex_eq_ok.mp h
  exact ⟨route index.toNat, (descend_route_toNat hindex).symm, hfound⟩

end Deontic.Tree
