import Deontic.Proofs.Chains
import Deontic.Proofs.Return

/-! What can be drawn.  A label of positive weight lies under a threshold of its own, so that some
draw from the unit interval selects it (`Distribution.drawable_categorical`).  In a grammar that
passes its check the values of positive weight are therefore exactly those that can be drawn, and
the model simulates the traces along all ways of positive weight (`Ready.simulates_model_iff`).
Its results are the trees that derive from the root rule (`Ready.exists_simulates_iff`), and each
of them is the result of one trace alone (`eq_of_model`). -/

namespace Deontic

namespace Distribution

/-- Among running sums, some draw selects a label of positive weight. -/
theorem exists_select_runningFrom {all : ℚ} (hall : 0 < all) {weighted : List (Value × ℚ)}
    (hnonneg : ∀ entry ∈ weighted, 0 ≤ entry.2) {entry : Value × ℚ} (hentry : entry ∈ weighted)
    (hpos : 0 < entry.2) (sum : ℚ) :
    ∃ draw, sum ≤ draw ∧
      draw < sum + ((weighted.map Prod.snd).map fun w => Scale.div w all).sum ∧
      select draw ((weighted.map Prod.fst).zip
        (runningFrom sum ((weighted.map Prod.snd).map fun w => Scale.div w all))) =
          some entry.1 := by
  induction weighted generalizing sum with
  | nil => cases hentry
  | cons first rest ih =>
    obtain ⟨hfirst, hrest⟩ := List.forall_mem_cons.mp hnonneg
    have hothers : 0 ≤ ((rest.map Prod.snd).map fun w => Scale.div w all).sum := by
      apply List.sum_nonneg
      intro x hx
      obtain ⟨w, hw, rfl⟩ := List.mem_map.mp hx
      obtain ⟨other, hother, rfl⟩ := List.mem_map.mp hw
      exact div_nonneg (hrest other hother) hall.le
    have hsum : ((((first :: rest).map Prod.snd).map fun w => Scale.div w all)).sum =
        first.2 / all + ((rest.map Prod.snd).map fun w => Scale.div w all).sum := rfl
    have hselect (draw : ℚ) : select draw (((first :: rest).map Prod.fst).zip
        (runningFrom sum (((first :: rest).map Prod.snd).map fun w => Scale.div w all))) =
          if Scale.lt draw (sum + first.2 / all) then some first.1
          else select draw ((rest.map Prod.fst).zip (runningFrom (sum + first.2 / all)
            ((rest.map Prod.snd).map fun w => Scale.div w all))) := rfl
    rw [hsum]
    rcases List.mem_cons.mp hentry with rfl | hentry
    · -- the sum before the label is a draw below its threshold
      have hshare := div_pos hpos hall
      refine ⟨sum, le_rfl, by linarith, ?_⟩
      have hlt : Scale.lt sum (sum + entry.2 / all) = true := decide_eq_true (by linarith)
      rw [hselect, hlt, if_pos rfl]
    · obtain ⟨draw, hle, hlt, hdrawn⟩ := ih hrest hentry (sum + first.2 / all)
      have hshare := div_nonneg hfirst hall.le
      refine ⟨draw, by linarith, by linarith, ?_⟩
      have hskip : Scale.lt draw (sum + first.2 / all) = false :=
        decide_eq_false (not_lt.mpr hle)
      rw [hselect, hskip]
      exact hdrawn

/-- From a proper distribution, exactly the labels of positive weight can be drawn. -/
theorem drawable_categorical {weighted : List (Value × ℚ)} (h : (categorical weighted).Proper)
    {address : Path} {entry : Value × ℚ} (hentry : entry ∈ weighted) :
    (⟨address, categorical weighted, entry.1⟩ : Visit ℚ).Drawable ↔ 0 < entry.2 := by
  constructor
  · intro hdrawable
    have hpos := hdrawable.density_pos h.fair
    rwa [density_of_mem h.1 hentry] at hpos
  · intro hpos
    obtain ⟨hthresholds, hone⟩ := thresholds_eq h.2
    have hall : 0 < total (weighted.map Prod.snd) := (total_eq_sum _).symm ▸ h.2
    obtain ⟨draw, hdraw, hdraw', hselect⟩ :=
      exists_select_runningFrom hall h.1.2 hentry hpos 0
    rw [hone, zero_add] at hdraw'
    refine ⟨draw, hdraw, hdraw', ?_⟩
    rw [sample, h.isProper, hthresholds, hselect]
    rfl

/-- From proper weights, exactly the texts of positive weight can be drawn. -/
theorem drawable_ofTexts {weights : Table String ℚ} (h : (ofTexts weights).Proper) {address : Path}
    {text : String} : (⟨address, ofTexts weights, .text text⟩ : Visit ℚ).Drawable ↔
      Scale.isImpossible ℚ ((ofTexts weights).logDensity (.text text) : LogWeight) = false := by
  rw [Scale.isImpossible_rat, possible_ofTexts]
  constructor
  · intro hdrawable
    have hpos := hdrawable.density_pos h.fair
    exact possible_ofTexts.mp (Scale.logOf_ne_bot.mpr hpos)
  · rintro ⟨p, hp, hpos⟩
    have hentry :
        (Value.text text, p) ∈ weights.entries.map fun entry => (.text entry.1, entry.2) :=
      List.mem_map.mpr ⟨(text, p), Table.mem_of_get?_eq hp, rfl⟩
    exact (drawable_categorical h hentry).mpr hpos

end Distribution

namespace Grammar

variable {grammar : Grammar ℚ}

namespace Ready

variable (h : grammar.Ready)
include h

theorem proper_words {rule word : String} {parts : List String} {weights : Table String ℚ}
    (hweights : grammar.wordWeights.get? rule = some weights)
    (hparts : grammar.parts? rule word = some parts) : (Distribution.ofTexts weights).Proper := by
  obtain ⟨offered, hoffered, -⟩ := Option.bind_eq_some_iff.mp hparts
  have hrule : grammar.rules.contains rule = true := by
    rw [Table.contains_eq_isSome_get?, hoffered]
    rfl
  obtain ⟨weights', hsame, hproper⟩ := h.weights hrule
  rwa [Option.some.inj (hweights.symm.trans hsame)]

theorem proper_texts {rule word : String} {texts : Table String ℚ}
    (hparts : grammar.parts? rule word = some [])
    (htexts : grammar.textWeights.get? word = some texts) :
    (Distribution.ofTexts texts).Proper := by
  cases h.fits hparts with
  | leaf _ _ hsame hproper => rwa [Option.some.inj (htexts.symm.trans hsame)]

/-- The choices of a derivation can be drawn if they are possible. -/
theorem drawable {index : Int} {rule : String} {way : Way ℚ} {t : Tree}
    (hgrown : Grown grammar index rule way t)
    (hpossible : ∀ visit ∈ way, Scale.isImpossible ℚ (visit.density : LogWeight) = false) :
    ∀ visit ∈ way, visit.Drawable := by
  induction hgrown with
  | leaf hweights hparts htexts =>
    obtain ⟨hword, htext⟩ := List.forall_mem_cons.mp hpossible
    refine List.forall_mem_cons.mpr ⟨?_, List.forall_mem_singleton.mpr ?_⟩
    · exact (Distribution.drawable_ofTexts (h.proper_words hweights hparts)).mpr hword
    · exact (Distribution.drawable_ofTexts (h.proper_texts hparts htexts)).mpr
        (htext _ List.mem_cons_self)
  | single hweights hparts _ _ ih =>
    obtain ⟨hword, hleft⟩ := List.forall_mem_cons.mp hpossible
    refine List.forall_mem_cons.mpr ⟨?_, ih hleft⟩
    exact (Distribution.drawable_ofTexts (h.proper_words hweights hparts)).mpr hword
  | pair hweights hparts _ _ _ ihl ihr =>
    obtain ⟨hword, hrest⟩ := List.forall_mem_cons.mp hpossible
    obtain ⟨hleft, hright⟩ := List.forall_mem_append.mp hrest
    refine List.forall_mem_cons.mpr ⟨?_, List.forall_mem_append.mpr ⟨ihl hleft, ihr hright⟩⟩
    exact (Distribution.drawable_ofTexts (h.proper_words hweights hparts)).mpr hword

end Ready

/-! ### The traces of the model -/

/-- The model simulates exactly the traces along ways of positive weight. -/
theorem Ready.simulates_model_iff (h : grammar.Ready) (hweighed : grammar.Weighed)
    {trace : Trace ℚ LogWeight Tree} : grammar.model.Simulates trace ↔
      trace.program = grammar.model ∧ ∃ way, trace.Along way := by
  rw [Program.simulates_iff (fair_model hweighed) grammar.steady_model]
  refine and_congr_right fun hprogram => exists_congr fun way => ?_
  constructor
  · exact And.left
  · intro halong
    obtain ⟨whole, rfl, hgrown, hpossible⟩ := exists_grown_of_model halong hprogram
    refine ⟨halong, List.forall_mem_map.mpr fun visit hvisit => ?_⟩
    exact h.drawable hgrown hpossible visit hvisit

/-- The trees that the model builds are those that derive from the root rule. -/
theorem Ready.exists_simulates_iff (h : grammar.Ready) (hweighed : grammar.Weighed)
    (hnames : grammar.Distinguished) {t : Tree} :
    (∃ trace : Trace ℚ LogWeight Tree, grammar.model.Simulates trace ∧ trace.result = t) ↔
      grammar.Derives grammar.root t := by
  constructor
  · rintro ⟨trace, hsimulates, rfl⟩
    obtain ⟨hprogram, way, halong⟩ := (h.simulates_model_iff hweighed).mp hsimulates
    exact derives_of_model halong hprogram
  · intro hderives
    obtain ⟨way, hgrown, hpossible⟩ := hderives.exists_grown 1
    obtain ⟨trace, halong, hprogram, hresult⟩ :=
      hgrown.exists_along (W := LogWeight) hnames hpossible
    exact ⟨trace, (h.simulates_model_iff hweighed).mpr ⟨hprogram, _, halong⟩, hresult⟩

/-- Derivations of one tree from one rule are one, as each variant of nodes has one word. -/
theorem Grown.way_unique (hstandard : grammar.vocabulary = .standard)
    (hnames : grammar.Distinguished) {index : Int} (hindex : 1 ≤ index) {rule : String}
    {way way' : Way ℚ} {t : Tree} (h : Grown grammar index rule way t)
    (h' : Grown grammar index rule way' t) : way = way' := by
  have hentries : way.entries = way'.entries :=
    (h.entries_eq_marks hstandard 1).trans (h'.entries_eq_marks hstandard 1).symm
  have hvalues (path : Path) : way.value? path = way'.value? path := by
    rw [Way.value?, Way.value?, hentries]
  refine (h.unique h' way.value? (fun visit hvisit => ?_) fun visit hvisit => ?_).1
  · exact Way.value?_of_mem (h.distinct hnames hindex) hvisit
  · rw [hvalues]
    exact Way.value?_of_mem (h'.distinct hnames hindex) hvisit

/-- A tree is the result of at most one trace of the model. -/
theorem eq_of_model (hstandard : grammar.vocabulary = .standard) (hnames : grammar.Distinguished)
    {trace other : Trace ℚ LogWeight Tree} {way way' : Way ℚ} (h : trace.Along way)
    (h' : other.Along way') (hprogram : trace.program = grammar.model)
    (hprogram' : other.program = grammar.model) (hresult : trace.result = other.result) :
    trace = other := by
  obtain ⟨whole, rfl, hgrown, -⟩ := exists_grown_of_model h hprogram
  obtain ⟨whole', rfl, hgrown', -⟩ := exists_grown_of_model h' hprogram'
  rw [← hresult] at hgrown'
  obtain rfl := hgrown.way_unique hstandard hnames le_rfl hgrown'
  have hchoices := Except.ok.inj (h.recorded.symm.trans h'.recorded)
  have hscore := h.scored.trans h'.scored.symm
  have hsame := hprogram.trans hprogram'.symm
  obtain ⟨program, result, choices, score⟩ := trace
  obtain ⟨program', result', choices', score'⟩ := other
  subst hsame hresult hchoices hscore
  rfl

end Grammar

end Deontic
