import Mathlib.Order.Interval.Set.Defs
import Deontic.Proofs.Totals

/-! The draws that give a label.  Weights of a positive sum divide the unit interval among their
labels: each label has the draws from the share of the weights before it up to the share that takes
its own weight in (`select_eq_some_iff`).  So every draw gives a label of positive weight, and a
label of weight zero has no draw, wherever it stands in the table (`sample_inverts`). -/

namespace Deontic.Distribution

/-- What is selected is a label. -/
theorem mem_of_select {draw : ℚ} {labels : List Value} {thresholds : List ℚ} {label : Value}
    (h : select draw (labels.zip thresholds) = some label) : label ∈ labels := by
  induction labels generalizing thresholds with
  | nil => cases h
  | cons first rest ih =>
    cases thresholds with
    | nil => cases h
    | cons threshold thresholds =>
      rw [List.zip_cons_cons, select] at h
      split at h
      · simp [Option.some.inj h]
      · exact List.mem_cons_of_mem _ (ih h)

/-- Running sums from a sum that is not above the draw select a label if they pass the draw there.
-/
theorem select_runningFrom_eq_some_iff {draw all : ℚ} (hall : 0 < all)
    {before after : List (Value × ℚ)} {label : Value} {p : ℚ}
    (hfair : (categorical (before ++ (label, p) :: after)).Fair) {sum : ℚ} (hsum : sum ≤ draw) :
    select draw (((before ++ (label, p) :: after).map Prod.fst).zip (runningFrom sum
        (((before ++ (label, p) :: after).map Prod.snd).map fun w => Scale.div w all))) =
          some label ↔
      sum + (before.map Prod.snd).sum / all ≤ draw ∧
        draw < sum + ((before.map Prod.snd).sum + p) / all := by
  induction before generalizing sum with
  | nil =>
    obtain ⟨hdistinct, -⟩ := hfair
    obtain ⟨hne, -⟩ := List.pairwise_cons.mp hdistinct
    show (if Scale.lt draw (sum + p / all) then some label else select draw _) = some label ↔ _
    simp only [List.map_nil, List.sum_nil, zero_div, add_zero, zero_add, hsum, true_and]
    by_cases hlt : draw < sum + p / all
    · exact iff_of_true (if_pos (decide_eq_true hlt)) hlt
    · refine iff_of_false (fun hselect => ?_) hlt
      have hskip : ¬Scale.lt draw (sum + p / all) = true := fun h => hlt (of_decide_eq_true h)
      rw [if_neg hskip] at hselect
      obtain ⟨entry, hentry, hlabel⟩ := List.mem_map.mp (mem_of_select hselect)
      have hsame := hne entry hentry
      simp [hlabel] at hsame
  | cons first rest ih =>
    obtain ⟨hdistinct, hnonneg⟩ := hfair
    obtain ⟨hne, hdistinct⟩ := List.pairwise_cons.mp hdistinct
    obtain ⟨hfirst, hnonneg⟩ := List.forall_mem_cons.mp hnonneg
    show (if Scale.lt draw (sum + first.2 / all) then some first.1 else select draw _) =
      some label ↔ _
    simp only [List.map_cons, List.sum_cons]
    by_cases hlt : draw < sum + first.2 / all
    · -- the draw belongs to an earlier label
      have hother : first.1 ≠ label := by
        rintro rfl
        have hsame := hne (first.1, p) (by simp)
        simp at hsame
      have hothers : 0 ≤ (rest.map Prod.snd).sum / all := by
        apply div_nonneg _ hall.le
        apply List.sum_nonneg
        intro w hw
        obtain ⟨entry, hentry, rfl⟩ := List.mem_map.mp hw
        exact hnonneg entry (List.mem_append_left _ hentry)
      have hlt' : Scale.lt draw (sum + first.2 / all) = true := decide_eq_true hlt
      rw [if_pos hlt']
      refine iff_of_false (fun h => hother (Option.some.inj h)) fun h => ?_
      rw [add_div] at h
      linarith [h.1]
    · have hskip : ¬Scale.lt draw (sum + first.2 / all) = true := fun h => hlt (of_decide_eq_true h)
      rw [if_neg hskip]
      refine (ih ⟨hdistinct, hnonneg⟩ (not_lt.mp hlt)).trans ?_
      rw [add_assoc, ← add_div, add_assoc, ← add_div, ← add_assoc]

/-- The share that a part of the weights has in all of them. -/
def share (weights : Table Value ℚ) (part : List (Value × ℚ)) : ℚ :=
  (part.map Prod.snd).sum / weights.values.sum

/-- That draws from the unit interval give the labels of a table by their weights. -/
structure Inverts (weights : Table Value ℚ) : Prop where
  /-- Every draw gives a label of positive weight, which is possible. -/
  drawn : ∀ draw : ℚ, 0 ≤ draw → draw < 1 → ∀ rest,
    ∃ label p, (label, p) ∈ weights.entries ∧ 0 < p ∧
    (categorical weights.entries).sample (draw :: rest) = .ok (label, rest) ∧
      (categorical weights.entries).logDensity label ≠ (⊥ : LogWeight)
  /-- The draws that give a label are those from the share of the weights before it up to the share
  that takes in its own, and there are as many as its weight is of the sum. -/
  interval : ∀ before label p after, weights.entries = before ++ (label, p) :: after →
    (∀ rest, {draw : ℚ | (0 ≤ draw ∧ draw < 1) ∧
        (categorical weights.entries).sample (draw :: rest) = .ok (label, rest)} =
      Set.Ico (share weights before) (share weights (before ++ [(label, p)]))) ∧
    share weights (before ++ [(label, p)]) - share weights before = p / weights.values.sum

section Table

variable {weights : Table Value ℚ} (hnonneg : ∀ p ∈ weights.values, 0 ≤ p)
  (hpos : 0 < weights.values.sum)

include hnonneg hpos

theorem proper_of_sum_pos : (categorical weights.entries).Proper :=
  ⟨⟨weights.distinct, List.forall_mem_map.mp hnonneg⟩, hpos⟩

/-- A draw gives a label if it lies in the share of that label. -/
theorem sample_eq_ok_iff {before after : List (Value × ℚ)} {label : Value} {p : ℚ}
    (hentries : weights.entries = before ++ (label, p) :: after) {draw : ℚ} (hdraw : 0 ≤ draw)
    (rest : List ℚ) :
    (categorical weights.entries).sample (draw :: rest) = .ok (label, rest) ↔
      share weights before ≤ draw ∧ draw < share weights (before ++ [(label, p)]) := by
  have hproper := proper_of_sum_pos hnonneg hpos
  replace hpos : 0 < (weights.entries.map Prod.snd).sum := hpos
  have hall : 0 < total (weights.entries.map Prod.snd) := by rwa [total_eq_sum]
  have hselect := select_runningFrom_eq_some_iff hall (hentries ▸ hproper.fair) hdraw
  rw [← hentries, total_eq_sum, zero_add, zero_add] at hselect
  rw [sample, hproper.isProper, (thresholds_eq hpos).1, total_eq_sum, share, share, List.map_append,
    List.sum_append, List.map_singleton, List.sum_singleton]
  refine Iff.trans ?_ hselect
  cases select draw _ <;> simp

theorem share_nonneg {before after : List (Value × ℚ)}
    (hentries : weights.entries = before ++ after) :
    0 ≤ share weights before := by
  apply div_nonneg _ hpos.le
  apply List.sum_nonneg
  intro w hw
  apply hnonneg
  rw [Table.values, hentries, List.map_append]
  exact List.mem_append_left _ hw

theorem share_le_one {before after : List (Value × ℚ)}
    (hentries : weights.entries = before ++ after) :
    share weights before ≤ 1 := by
  have hafter : 0 ≤ (after.map Prod.snd).sum := by
    apply List.sum_nonneg
    intro w hw
    apply hnonneg
    rw [Table.values, hentries, List.map_append]
    exact List.mem_append_right _ hw
  have hsum : weights.values.sum = (before.map Prod.snd).sum + (after.map Prod.snd).sum := by
    rw [Table.values, hentries, List.map_append, List.sum_append]
  rw [share, div_le_one hpos, hsum]
  linarith

/-- Every draw lies in the share of a label of positive weight. -/
theorem exists_sample_pos {draw : ℚ} (hdraw : 0 ≤ draw) (hdraw' : draw < 1) (rest : List ℚ) :
    ∃ label p, (label, p) ∈ weights.entries ∧ 0 < p ∧
      (categorical weights.entries).sample (draw :: rest) = .ok (label, rest) := by
  have hproper := proper_of_sum_pos hnonneg hpos
  replace hpos : 0 < (weights.entries.map Prod.snd).sum := hpos
  obtain ⟨hone, hlength⟩ := one_mem_thresholds hpos
  have hlabels : (thresholds (weights.entries.map Prod.snd)).length ≤
      (weights.entries.map Prod.fst).length := by simp [hlength]
  obtain ⟨label, hselect⟩ := exists_select hlabels ⟨1, hone, hdraw'⟩
  obtain ⟨⟨label, p⟩, hentry, rfl, hshare⟩ :=
    pos_of_select_thresholds hdraw hproper.isProper hselect
  refine ⟨label, p, hentry, ?_, ?_⟩
  · rw [total_eq_sum] at hshare
    exact (div_pos_iff_of_pos_right hpos).mp hshare
  · rw [sample, hproper.isProper]
    simp [hselect]

theorem inverts : Inverts weights where
  drawn draw hdraw hdraw' rest := by
    obtain ⟨label, p, hentry, hweight, hsample⟩ := exists_sample_pos hnonneg hpos hdraw hdraw' rest
    refine ⟨label, p, hentry, hweight, hsample, ?_⟩
    rw [logDensity, Scale.logOf_ne_bot, density_of_mem (proper_of_sum_pos hnonneg hpos).fair hentry]
    exact hweight
  interval before label p after hentries := by
    have hentries' : weights.entries = (before ++ [(label, p)]) ++ after := by simp [hentries]
    refine ⟨fun rest => Set.ext fun draw => ?_, ?_⟩
    · constructor
      · rintro ⟨⟨hdraw, -⟩, hsample⟩
        exact (sample_eq_ok_iff hnonneg hpos hentries hdraw rest).mp hsample
      · rintro ⟨hstart, hstop⟩
        have hdraw := (share_nonneg hnonneg hpos hentries).trans hstart
        have hdraw' := hstop.trans_le (share_le_one hnonneg hpos hentries')
        exact ⟨⟨hdraw, hdraw'⟩,
          (sample_eq_ok_iff hnonneg hpos hentries hdraw rest).mpr ⟨hstart, hstop⟩⟩
    · simp only [share, List.map_append, List.sum_append, List.map_singleton, List.sum_singleton]
      rw [← sub_div, add_sub_cancel_left]

end Table

/-- A draw between yes and no gives one that is possible. -/
theorem exists_sample_bernoulli {yes draw : ℚ} (hdraw : 0 ≤ draw) (hdraw' : draw < 1)
    (rest : List ℚ) : ∃ value, (bernoulli yes).sample (draw :: rest) = .ok (value, rest) ∧
      (bernoulli yes).logDensity value ≠ (⊥ : LogWeight) := by
  have hsample : (bernoulli yes).sample [draw] = .ok (.bool (Scale.lt draw yes), []) := rfl
  have hunit : UnitDraws [draw] := List.forall_mem_singleton.mpr ⟨hdraw, hdraw'⟩
  exact ⟨_, rfl, possible_of_sample (Proper.bernoulli yes).fair hunit hsample⟩

/-- **Draws and distributions.**  Draws from the unit interval give the labels of a table in
proportion to their weights, and whatever they give, of labels or of yes and no, is possible. -/
theorem sample_inverts (weights : Table Value ℚ) (hnonneg : ∀ p ∈ weights.values, 0 ≤ p)
    (hpos : 0 < weights.values.sum) (yes : ℚ) :
    Inverts weights ∧ ∀ draw : ℚ, 0 ≤ draw → draw < 1 → ∀ rest, ∃ value,
      (bernoulli yes).sample (draw :: rest) = .ok (value, rest) ∧
        (bernoulli yes).logDensity value ≠ (⊥ : LogWeight) :=
  ⟨inverts hnonneg hpos, fun _ hdraw hdraw' rest => exists_sample_bernoulli hdraw hdraw' rest⟩

/-- Weights with zeros in front, between others and at the end, of sum three. -/
def gaps : Table Value ℚ :=
  ⟨[(.text "a", 0), (.text "b", 1), (.text "c", 0), (.text "d", 2), (.text "e", 0)], by decide⟩

/-- The draw at the end of one share belongs to the next label that has a weight. -/
theorem sample_inverts_gaps : (∀ p ∈ gaps.values, 0 ≤ p) ∧ 0 < gaps.values.sum ∧ Inverts gaps ∧
    {draw : ℚ | (0 ≤ draw ∧ draw < 1) ∧
      (categorical gaps.entries).sample [draw] = .ok (.text "d", [])} = Set.Ico (1 / 3) 1 := by
  have hnonneg : ∀ p ∈ gaps.values, 0 ≤ p := by decide
  have hpos : 0 < gaps.values.sum := by norm_num [gaps, Table.values]
  have hinverts := (sample_inverts gaps hnonneg hpos 1).1
  have hdraws := (hinverts.interval [_, _, _] (.text "d") 2 [_] rfl).1 []
  have hstart : share gaps [(.text "a", 0), (.text "b", 1), (.text "c", 0)] = 1 / 3 := by
    norm_num [share, gaps, Table.values]
  have hstop : share gaps ([(.text "a", 0), (.text "b", 1), (.text "c", 0)] ++ [(.text "d", 2)]) =
      1 := by
    norm_num [share, gaps, Table.values]
  rw [hstart, hstop] at hdraws
  exact ⟨hnonneg, hpos, hinverts, hdraws⟩

end Deontic.Distribution
