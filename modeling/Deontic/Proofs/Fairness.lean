import Deontic.Proofs.Exact
import Deontic.Proofs.Passage

/-! Fair distributions.  The weights of a fair distribution are not negative and belong to different
labels, so that a draw from the unit interval never selects a label of weight zero
(`Distribution.possible_of_sample`).  A program whose distributions are all fair passes this on to
its runs: every choice on the way of a run is possible (`Run.AdmitsAll.possible`). -/

namespace Deontic

/-- Draws from zero up to, but not including, one. -/
def UnitDraws (draws : List ℚ) : Prop := ∀ draw ∈ draws, 0 ≤ draw ∧ draw < 1

instance (draws : List ℚ) : Decidable (UnitDraws draws) :=
  inferInstanceAs (Decidable (∀ draw ∈ draws, 0 ≤ draw ∧ draw < 1))

theorem UnitDraws.tail {draws : List ℚ} (h : UnitDraws draws) : UnitDraws draws.tail :=
  fun draw hdraw => h draw (List.mem_of_mem_tail hdraw)

namespace Distribution

/-- Weights that are not negative, of different labels.  A choice between yes and no is fair. -/
def Fair : Distribution ℚ → Prop
  | categorical weighted =>
    (weighted.Pairwise fun a b => (a.1 == b.1) = false) ∧ ∀ entry ∈ weighted, 0 ≤ entry.2
  | bernoulli _ => True

theorem running_rat (xs : List ℚ) : running xs = runningFrom 0 xs := by
  cases xs with
  | nil => rfl
  | cons x rest =>
    have hsum : Scale.add (0 : ℚ) x = x := zero_add x
    rw [running, runningFrom, hsum]

theorem runningFrom_nonneg {xs : List ℚ} {sum : ℚ} (hsum : 0 ≤ sum) (hxs : ∀ x ∈ xs, 0 ≤ x) :
    ∀ s ∈ runningFrom sum xs, 0 ≤ s := by
  induction xs generalizing sum with
  | nil => exact nofun
  | cons x rest ih =>
    obtain ⟨hx, hrest⟩ := List.forall_mem_cons.mp hxs
    have hnext : 0 ≤ Scale.add sum x := add_nonneg hsum hx
    exact List.forall_mem_cons.mpr ⟨hnext, ih hnext hrest⟩

/-- Running sums that grow past a draw grow by a positive number. -/
theorem pos_of_select_runningFrom {draw last sum all : ℚ} {weighted : List (Value × ℚ)}
    {label : Value} (hlast : 0 ≤ last) (hsum : sum / last ≤ draw)
    (h : select draw ((weighted.map Prod.fst).zip
      ((runningFrom sum ((weighted.map Prod.snd).map fun w => Scale.div w all)).map
        fun s => Scale.div s last)) = some label) :
    ∃ entry ∈ weighted, entry.1 = label ∧ 0 < entry.2 / all := by
  induction weighted generalizing sum with
  | nil => cases h
  | cons entry rest ih =>
    have hselect : (if Scale.lt draw ((sum + entry.2 / all) / last) then some entry.1
        else select draw ((rest.map Prod.fst).zip
          ((runningFrom (sum + entry.2 / all)
            ((rest.map Prod.snd).map fun w => Scale.div w all)).map
              fun s => Scale.div s last))) = some label := h
    split at hselect
    · next hlt =>
      have hlt : draw < (sum + entry.2 / all) / last := of_decide_eq_true hlt
      refine ⟨entry, List.mem_cons_self, Option.some.inj hselect, ?_⟩
      by_contra hnot
      have hle : (sum + entry.2 / all) / last ≤ sum / last := by
        apply div_le_div_of_nonneg_right _ hlast
        linarith
      linarith
    · next hge =>
      have hge : (sum + entry.2 / all) / last ≤ draw := not_lt.mp fun hlt =>
        hge (decide_eq_true hlt)
      obtain ⟨found, hfound, hlabel, hpos⟩ := ih hge hselect
      exact ⟨found, List.mem_cons_of_mem _ hfound, hlabel, hpos⟩

theorem density_of_mem {weighted : List (Value × ℚ)} (h : (categorical weighted).Fair)
    {entry : Value × ℚ} (hentry : entry ∈ weighted) :
    (categorical weighted).density entry.1 = entry.2 := by
  have hfound := Table.get?_of_mem (t := ⟨weighted, h.1⟩) hentry
  have hfind : (weighted.find? fun e => e.1 == entry.1).map Prod.snd = some entry.2 := hfound
  rw [density, hfind]
  rfl

/-- A draw among weighted labels selects one of them by its threshold. -/
theorem sample_categorical_eq_ok {weighted : List (Value × ℚ)} {draws rest : List ℚ}
    {value : Value} (h : (categorical weighted).sample draws = .ok (value, rest)) :
    isProper (weighted.map Prod.snd) = true ∧ ∃ draw ∈ draws,
      select draw ((weighted.map Prod.fst).zip (thresholds (weighted.map Prod.snd))) =
        some value := by
  unfold sample at h
  dsimp only at h
  split at h
  · cases h
  · next hproper =>
    refine ⟨by simpa using hproper, ?_⟩
    cases draws with
    | nil => cases h
    | cons draw later =>
      refine ⟨draw, List.mem_cons_self, ?_⟩
      dsimp only at h
      split at h
      · next hselect => cases h; exact hselect
      · cases h

theorem pos_of_select_thresholds {draw : ℚ} {weighted : List (Value × ℚ)} {label : Value}
    (hdraw : 0 ≤ draw) (hproper : isProper (weighted.map Prod.snd) = true)
    (h : select draw ((weighted.map Prod.fst).zip (thresholds (weighted.map Prod.snd))) =
      some label) :
    ∃ entry ∈ weighted, entry.1 = label ∧ 0 < entry.2 / total (weighted.map Prod.snd) := by
  rw [thresholds, running_rat] at h
  split at h
  · next last hlast =>
    have hnormalised : ∀ x ∈ (weighted.map Prod.snd).map
        fun w => Scale.div w (total (weighted.map Prod.snd)), 0 ≤ x := by
      intro x hx
      rw [isProper, Bool.and_eq_true] at hproper
      exact of_decide_eq_true (List.all_eq_true.mp hproper.1 x hx)
    have hlast : 0 ≤ last :=
      runningFrom_nonneg le_rfl hnormalised last (List.mem_of_getLast? hlast)
    have hzero : (0 : ℚ) / last ≤ draw := by rw [zero_div]; exact hdraw
    exact pos_of_select_runningFrom hlast hzero h
  · rw [List.zip_nil_right] at h
    cases h

theorem pos_of_sample_bernoulli {yes : ℚ} {draws rest : List ℚ} {value : Value}
    (hdraws : UnitDraws draws) (h : (bernoulli yes).sample draws = .ok (value, rest)) :
    0 < (bernoulli yes).density value := by
  cases draws with
  | nil => cases h
  | cons draw later =>
    obtain ⟨hdraw, hdraw'⟩ := hdraws draw List.mem_cons_self
    have hvalue : value = .bool (decide (draw < yes)) := by cases h; rfl
    rw [hvalue, density]
    by_cases hlt : draw < yes
    · simp only [Value.isTrue, hlt, decide_true, if_true]
      linarith
    · simp only [Value.isTrue, hlt, decide_false, Bool.false_eq_true, if_false]
      show 0 < 1 - yes
      linarith

/-- Exactly the values without a positive density are impossible. -/
theorem isImpossible_iff {dist : Distribution ℚ} {value : Value} :
    Scale.isImpossible ℚ (dist.logDensity value : LogWeight) = true ↔ ¬0 < dist.density value := by
  rw [← Bool.not_eq_false, Scale.isImpossible_rat, logDensity, Scale.logOf_ne_bot]

/-- A value that is drawn from a fair distribution is possible. -/
theorem possible_of_sample {dist : Distribution ℚ} (h : dist.Fair) {draws rest : List ℚ}
    (hdraws : UnitDraws draws) {value : Value} (hsample : dist.sample draws = .ok (value, rest)) :
    dist.logDensity value ≠ ⊥ := by
  rw [logDensity, Scale.logOf_ne_bot]
  cases dist with
  | bernoulli yes => exact pos_of_sample_bernoulli hdraws hsample
  | categorical weighted =>
    obtain ⟨hproper, draw, hdraw, hselect⟩ := sample_categorical_eq_ok hsample
    obtain ⟨entry, hentry, rfl, hpos⟩ :=
      pos_of_select_thresholds (hdraws draw hdraw).1 hproper hselect
    rw [density_of_mem h hentry]
    refine lt_of_le_of_ne (h.2 entry hentry) fun hnone => ?_
    rw [← hnone, zero_div] at hpos
    exact lt_irrefl _ hpos

end Distribution

namespace Sampler

variable {α β : Type}

/-- Whether all distributions of a program are fair, whatever is chosen. -/
def Fair : Sampler ℚ α → Prop
  | pure _ => True
  | fail _ => True
  | note _ rest => rest.Fair
  | choose _ dist next => dist.Fair ∧ ∀ value, (next value).Fair

theorem Fair.bind {s : Sampler ℚ α} (h : s.Fair) {f : α → Sampler ℚ β} (hf : ∀ a, (f a).Fair) :
    (s.bind f).Fair := by
  induction s with
  | pure a => exact hf a
  | fail => trivial
  | note record rest ih => exact ih h
  | choose address dist next ih => exact ⟨h.1, fun value => ih value (h.2 value)⟩

theorem Fair.under {s : Sampler ℚ α} (h : s.Fair) (key : Value) : (s.under key).Fair := by
  induction s with
  | pure => trivial
  | fail => trivial
  | note record rest ih => exact ih h
  | choose address dist next ih => exact ⟨h.1, fun value => ih value (h.2 value)⟩

theorem fair_ofExcept (result : Except Fault α) : (ofExcept result : Sampler ℚ α).Fair := by
  cases result <;> trivial

theorem fair_sample {key : Value} {dist : Distribution ℚ} (h : dist.Fair) :
    (sample key dist).Fair :=
  ⟨h, fun _ => trivial⟩

theorem Fair.of_follows {s : Sampler ℚ α} (h : s.Fair) {way : Way ℚ} {result : α}
    (hway : Follows s way result) : ∀ visit ∈ way, visit.dist.Fair := by
  induction s generalizing way with
  | pure => obtain ⟨rfl, -⟩ := follows_pure.mp hway; exact nofun
  | fail => exact (not_follows_fail hway).elim
  | note record rest ih => exact ih h (follows_note.mp hway)
  | choose address dist next ih =>
    obtain ⟨value, rest, rfl, hrest⟩ := follows_choose.mp hway
    exact List.forall_mem_cons.mpr ⟨h.1, ih value (h.2 value) hrest⟩

end Sampler

namespace Run

variable {setting : Setting}

/-- A run with fair distributions goes over possible values alone, and leaves draws as good as those
it had. -/
theorem AdmitsAll.possible {run : Run ℚ LogWeight} {way : Way ℚ} (h : run.AdmitsAll setting way)
    (hfair : ∀ visit ∈ way, visit.dist.Fair) (hdraws : UnitDraws run.draws) :
    (∀ visit ∈ way, (visit.density : LogWeight) ≠ ⊥) ∧
      UnitDraws (run.passes setting way).draws := by
  induction way generalizing run with
  | nil => exact ⟨nofun, hdraws⟩
  | cons visit rest ih =>
    obtain ⟨hvisit, hrest⟩ := h
    obtain ⟨hfirst, hothers⟩ := List.forall_mem_cons.mp hfair
    cases hgiven : setting.given visit.address with
    | some value =>
      have hpossible := (hvisit.given value hgiven).2
      have hsame : (run.pass setting visit).draws = run.draws := by
        unfold pass enter
        cases horigin : setting.origin visit.address with
        | forced | kept => rfl
        | fresh => rw [Setting.origin_fresh_iff.mp horigin] at hgiven; cases hgiven
      obtain ⟨hways, hleft⟩ := ih hrest hothers (by rw [hsame]; exact hdraws)
      exact ⟨List.forall_mem_cons.mpr ⟨Scale.isImpossible_rat.mp hpossible, hways⟩, hleft⟩
    | none =>
      have hpossible := Distribution.possible_of_sample hfirst hdraws (hvisit.drawn hgiven).2
      have htail : (run.pass setting visit).draws = run.draws.tail := by
        simp only [pass, enter, Setting.origin_fresh_iff.mpr hgiven]
      obtain ⟨hways, hleft⟩ := ih hrest hothers (by rw [htail]; exact hdraws.tail)
      exact ⟨List.forall_mem_cons.mpr ⟨hpossible, hways⟩, hleft⟩

end Run

end Deontic
