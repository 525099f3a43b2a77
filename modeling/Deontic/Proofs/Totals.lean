import Deontic.Proofs.Fairness

/-! Distributions that can be drawn from.  However its terms are grouped, the total of exact weights
is their sum (`total_eq_sum`).  So the thresholds of weights that are not negative and not all zero
end at one, and every draw below one lies under one of them: from a proper distribution a draw
always gives a value (`Proper.exists_sample`). -/

namespace Deontic.Distribution

theorem foldl_add_rat (xs : List ℚ) (start : ℚ) : xs.foldl Scale.add start = start + xs.sum := by
  induction xs generalizing start with
  | nil => simp
  | cons x rest ih =>
    have hfirst : Scale.add start x = start + x := rfl
    rw [List.foldl_cons, hfirst, ih, List.sum_cons, add_assoc]

theorem sum_zipWith_add {xs ys : List ℚ} (h : xs.length = ys.length) :
    (List.zipWith Scale.add xs ys).sum = xs.sum + ys.sum := by
  induction xs generalizing ys with
  | nil =>
    obtain rfl := List.eq_nil_of_length_eq_zero h.symm
    simp
  | cons x rest ih =>
    cases ys with
    | nil => cases h
    | cons y others =>
      have hrest := ih (Nat.succ.inj h)
      have hfirst : Scale.add x y = x + y := rfl
      rw [List.zipWith_cons_cons, List.sum_cons, List.sum_cons, List.sum_cons, hrest, hfirst]
      ring

theorem sum_addBlocks {sums : List ℚ} (h : sums.length = 8) (xs : List ℚ) :
    (addBlocks sums xs).1.length = 8 ∧
      (addBlocks sums xs).1.sum + (addBlocks sums xs).2.sum = sums.sum + xs.sum := by
  fun_induction addBlocks sums xs with
  | case1 sums xs hlong ih =>
    have hblock : (xs.take 8).length = 8 := by
      rw [List.length_take]
      omega
    have hlength : (List.zipWith Scale.add sums (xs.take 8)).length = 8 := by
      rw [List.length_zipWith]
      omega
    obtain ⟨hlast, hsum⟩ := ih hlength
    refine ⟨hlast, ?_⟩
    rw [hsum, sum_zipWith_add (h.trans hblock.symm), add_assoc, List.sum_take_add_sum_drop]
  | case2 sums xs hshort => exact ⟨h, rfl⟩

theorem sum_addPairs (xs : List ℚ) : (addPairs xs).sum = xs.sum := by
  fun_induction addPairs xs with
  | case1 a b rest ih =>
    have hpair : Scale.add a b = a + b := rfl
    rw [List.sum_cons, List.sum_cons, List.sum_cons, ih, hpair, add_assoc]
  | case2 => rfl

theorem length_addPairs (xs : List ℚ) : (addPairs xs).length = (xs.length + 1) / 2 := by
  fun_induction addPairs xs with
  | case1 a b rest ih =>
    simp only [List.length_cons, ih]
    omega
  | case2 xs hshort =>
    rcases xs with _ | ⟨_, _ | ⟨_, _⟩⟩
    · rfl
    · simp
    · exact (hshort _ _ _ rfl).elim

theorem rowTotal_eq_sum (weights : List ℚ) : rowTotal weights = weights.sum := by
  unfold rowTotal
  split
  · rw [foldl_add_rat, Scale.zero_rat, zero_add]
  · next hlong =>
    have hblock : (weights.take 8).length = 8 := by
      rw [List.length_take]
      omega
    obtain ⟨hlength, hsum⟩ := sum_addBlocks hblock (weights.drop 8)
    dsimp only
    -- eight sums are four pairs, four are two, and two are one
    have hone : (addPairs (addPairs (addPairs
        (addBlocks (weights.take 8) (weights.drop 8)).1))).length = 1 := by
      simp only [length_addPairs, hlength]
    obtain ⟨first, hfirst⟩ := List.length_eq_one_iff.mp hone
    have hpaired := congrArg List.sum hfirst
    rw [sum_addPairs, sum_addPairs, sum_addPairs, List.sum_singleton] at hpaired
    rw [hfirst]
    dsimp only
    rw [foldl_add_rat, ← hpaired, hsum, List.sum_take_add_sum_drop]

/-- However it is grouped, the total of exact weights is their sum. -/
theorem total_eq_sum (weights : List ℚ) : total weights = weights.sum := by
  fun_induction total weights with
  | case1 weights hlong half ihl ihr =>
    have hsum : Scale.add (weights.take half).sum (weights.drop half).sum =
        (weights.take half).sum + (weights.drop half).sum := rfl
    rw [ihl, ihr, hsum, List.sum_take_add_sum_drop]
  | case2 weights hshort => exact rowTotal_eq_sum weights

/-! ### Values from draws -/

/-- Weights of different labels that are not negative and not all zero. -/
def Proper : Distribution ℚ → Prop
  | categorical weighted => (categorical weighted).Fair ∧ 0 < (weighted.map Prod.snd).sum
  | bernoulli _ => True

theorem Proper.bernoulli (yes : ℚ) : (Distribution.bernoulli yes).Proper := trivial

theorem Proper.fair {dist : Distribution ℚ} (h : dist.Proper) : dist.Fair := by
  cases dist with
  | categorical => exact h.1
  | bernoulli => trivial

theorem exists_select {draw : ℚ} {labels : List Value} {thresholds : List ℚ}
    (hlength : thresholds.length ≤ labels.length) (h : ∃ t ∈ thresholds, draw < t) :
    ∃ label, select draw (labels.zip thresholds) = some label := by
  induction labels generalizing thresholds with
  | nil =>
    obtain rfl := List.eq_nil_of_length_eq_zero (Nat.le_zero.mp hlength)
    obtain ⟨_, hmem, -⟩ := h
    cases hmem
  | cons label labels ih =>
    cases thresholds with
    | nil =>
      obtain ⟨_, hmem, -⟩ := h
      cases hmem
    | cons first rest =>
      rw [List.zip_cons_cons, select]
      by_cases hfirst : draw < first
      · exact ⟨label, if_pos (decide_eq_true hfirst)⟩
      · obtain ⟨t, hmem, ht⟩ := h
        have hskip : ¬ Scale.lt draw first = true := fun hlt => hfirst (of_decide_eq_true hlt)
        rw [if_neg hskip]
        rcases List.mem_cons.mp hmem with rfl | hmem
        · exact (hfirst ht).elim
        · exact ih (Nat.le_of_succ_le_succ hlength) ⟨t, hmem, ht⟩

theorem length_runningFrom (sum : ℚ) (xs : List ℚ) : (runningFrom sum xs).length = xs.length := by
  induction xs generalizing sum with
  | nil => rfl
  | cons x rest ih => rw [runningFrom, List.length_cons, List.length_cons, ih]

theorem getLast?_runningFrom (sum : ℚ) {xs : List ℚ} (h : xs ≠ []) :
    (runningFrom sum xs).getLast? = some (sum + xs.sum) := by
  induction xs generalizing sum with
  | nil => exact (h rfl).elim
  | cons x rest ih =>
    have hfirst : Scale.add sum x = sum + x := rfl
    cases rest with
    | nil => simp [runningFrom, hfirst]
    | cons y others =>
      rw [runningFrom, List.getLast?_cons, ih _ (List.cons_ne_nil y others), hfirst, List.sum_cons,
        add_assoc]
      rfl

/-- The thresholds of weights with a positive sum are their running sums, divided by it. -/
theorem thresholds_eq {weights : List ℚ} (h : 0 < weights.sum) :
    thresholds weights = runningFrom 0 (weights.map fun w => Scale.div w (total weights)) ∧
      (weights.map fun w => Scale.div w (total weights)).sum = 1 := by
  have hne : weights.map (fun w => Scale.div w (total weights)) ≠ [] := by
    intro hnil
    rw [List.map_eq_nil_iff.mp hnil] at h
    exact lt_irrefl _ h
  have hsum : (weights.map fun w => Scale.div w (total weights)).sum = 1 := by
    rw [total_eq_sum]
    have hdiv := List.sum_map_mul_right weights (fun w => w) weights.sum⁻¹
    rw [List.map_id'] at hdiv
    exact hdiv.trans (mul_inv_cancel₀ h.ne')
  have hlast := getLast?_runningFrom 0 hne
  rw [hsum, zero_add] at hlast
  refine ⟨?_, hsum⟩
  rw [thresholds, running_rat, hlast]
  exact List.map_id'' (fun s => div_one s) _

/-- The thresholds of weights with a positive sum end at one. -/
theorem one_mem_thresholds {weights : List ℚ} (h : 0 < weights.sum) :
    1 ∈ thresholds weights ∧ (thresholds weights).length = weights.length := by
  obtain ⟨hthresholds, hsum⟩ := thresholds_eq h
  have hne : weights.map (fun w => Scale.div w (total weights)) ≠ [] := by
    intro hnil
    rw [hnil] at hsum
    cases hsum
  have hlast := getLast?_runningFrom 0 hne
  rw [hsum, zero_add] at hlast
  rw [hthresholds]
  refine ⟨List.mem_of_getLast? hlast, ?_⟩
  rw [length_runningFrom, List.length_map]

theorem exists_pos_of_sum_pos {weights : List ℚ} (h : 0 < weights.sum) : ∃ w ∈ weights, 0 < w := by
  by_contra hnone
  push Not at hnone
  have hle := (List.sum_le_card_nsmul weights 0 hnone).trans_eq (nsmul_zero _)
  exact absurd h (not_lt.mpr hle)

theorem isProper_of_sum_pos {weights : List ℚ} (hnonneg : ∀ w ∈ weights, 0 ≤ w)
    (h : 0 < weights.sum) : isProper weights = true := by
  obtain ⟨w, hw, hpos⟩ := exists_pos_of_sum_pos h
  rw [isProper, total_eq_sum]
  refine Bool.and_eq_true_iff.mpr ⟨List.all_eq_true.mpr fun x hx => ?_, List.any_eq_true.mpr ?_⟩
  · obtain ⟨v, hv, rfl⟩ := List.mem_map.mp hx
    exact decide_eq_true (div_nonneg (hnonneg v hv) h.le)
  · exact ⟨_, List.mem_map_of_mem hw, decide_eq_true (div_pos hpos h)⟩

theorem Proper.isProper {weighted : List (Value × ℚ)} (h : (categorical weighted).Proper) :
    Distribution.isProper (weighted.map Prod.snd) = true := by
  obtain ⟨⟨-, hnonneg⟩, hsum⟩ := h
  exact isProper_of_sum_pos (List.forall_mem_map.mpr hnonneg) hsum

theorem Proper.sample_nil {dist : Distribution ℚ} (h : dist.Proper) :
    dist.sample [] = .error .exhausted := by
  cases dist with
  | bernoulli => rfl
  | categorical weighted =>
    rw [sample, h.isProper]
    rfl

/-- From a proper distribution a draw always gives a value. -/
theorem Proper.exists_sample {dist : Distribution ℚ} (h : dist.Proper) {draw : ℚ} (hdraw : draw < 1)
    (rest : List ℚ) : ∃ value, dist.sample (draw :: rest) = .ok (value, rest) := by
  cases dist with
  | bernoulli => exact ⟨_, rfl⟩
  | categorical weighted =>
    obtain ⟨hone, hlength⟩ := one_mem_thresholds h.2
    have hlabels : (thresholds (weighted.map Prod.snd)).length ≤
        (weighted.map Prod.fst).length := by
      rw [hlength, List.length_map, List.length_map]
    obtain ⟨label, hselect⟩ := exists_select hlabels ⟨1, hone, hdraw⟩
    refine ⟨label, ?_⟩
    rw [sample, h.isProper, hselect]
    rfl

end Deontic.Distribution
