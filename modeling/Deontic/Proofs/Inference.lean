import Deontic.Grammar.Loading
import Deontic.Proofs.Placements
import Deontic.Proofs.Proposals

/-! Norms inferred from a placement.  Under an observation the colour and the zone of a placement
are forced, and only its norm is drawn, so a placement draws what growth alone draws: it comes to an
end with the weight of the colour and of the zone (`draws_of_generate_some`), or stops because the
zone is impossible under its norm (`draws_of_generate_none`).  Inference therefore draws the norms
that as many growths draw, keeps those under which the zone is possible, and weighs them by it
(`infer_eq_consistent`). -/

namespace Deontic

variable {P W α : Type} [Scale P W]

/-! ### Ways that are drawn -/

namespace Way

theorem drawnFrom_under {key : Value} {way : Way P} {draws rest : List P} :
    DrawnFrom draws (way.under key) rest ↔ way.DrawnFrom draws rest := by
  induction way generalizing draws with
  | nil => rfl
  | cons visit way ih => exact and_congr_right fun _ => ih

end Way

/-- A run on draws alone makes the choices that are drawn from its draws. -/
theorem Run.admitsAll_of_drawnFrom {run : Run P W} {way : Way P} {rest : List P}
    (hdrawn : way.DrawnFrom run.draws rest) (hdistinct : way.Distinct)
    (hnew : ∀ address ∈ way.addresses, run.visited.contains address = false)
    (hset : ∃ choices, run.choices.setAll way.entries = .ok choices) : run.AdmitsAll .free way := by
  have hfresh : way.ofOrigin .free .fresh = way := List.filter_eq_self.mpr fun _ _ => rfl
  exact admitsAll_of_drawn (fun _ _ => nofun) (fun _ _ _ => rfl) (hfresh.symm ▸ hdrawn)
    hdistinct hnew
    hset

namespace Program

/-- A program is simulated along a way that is drawn, whatever was recorded before. -/
theorem exists_simulate_of_drawnFrom {program : Program P α} {way : Way P} {result : α}
    {draws rest : List P}
    (hfollows : ∀ calls, way.length ≤ calls → (program calls).Follows way result)
    (hdistinct : way.Distinct) (hset : ∃ choices, Choices.empty.setAll way.entries = .ok choices)
    (hdrawn : way.DrawnFrom draws rest) (records : List Record) :
    ∃ (trace : Trace P W α) (later : List Record),
      program.simulate.Yields ⟨draws, records⟩ trace ⟨rest, later⟩ ∧ trace.result = result ∧
        Choices.empty.setAll way.entries = .ok trace.choices ∧ trace.score = way.score := by
  have hlength := hdrawn.length
  have hcompletes :
      Completes (W := W) program .free (⟨draws, records⟩ : Supply P).draws way result :=
    ⟨hfollows _ (show way.length ≤ Setting.free.size + draws.length + 1 by omega),
      Run.admitsAll_of_drawnFrom hdrawn hdistinct (fun _ _ => rfl) hset, nofun⟩
  obtain ⟨later, hyields⟩ := hcompletes.yields
  have hleft : (ended (W := W) .free draws way).draws = rest :=
    (Run.drawnFrom_passes_free hcompletes.admits).unique hdrawn
  rw [hleft] at hyields
  exact ⟨_, later, yields_simulate.mpr ⟨_, _, hyields, rfl⟩, rfl,
    Run.choices_passes hcompletes.admits, Run.score_passes _ way⟩

/-- A program that is simulated goes a way that is drawn. -/
theorem exists_drawnFrom_of_simulate {program : Program P α} {supply rest : Supply P}
    {trace : Trace P W α} (h : program.simulate.Yields supply trace rest) :
    ∃ way : Way P, (∃ calls, (program calls).Follows way trace.result) ∧ way.Distinct ∧
      way.DrawnFrom supply.draws rest.draws ∧
      Choices.empty.setAll way.entries = .ok trace.choices ∧ trace.score = way.score := by
  obtain ⟨result, run, hexecute, rfl⟩ := yields_simulate.mp h
  obtain ⟨way, records, hcompletes, rfl, rfl⟩ := exists_way_of_yields hexecute
  exact ⟨way, ⟨_, hcompletes.follows⟩, hcompletes.admits.distinct.1,
    Run.drawnFrom_passes_free hcompletes.admits, Run.choices_passes hcompletes.admits,
    Run.score_passes _ way⟩

theorem exists_of_generate_none {program : Program P α} {constraints : Choices} {weight : W}
    {supply rest : Supply P}
    (h : (program.generate constraints).Yields supply (none, weight) rest) :
    ∃ (address : Path) (run : Run P W),
      (program.execute (.forcing constraints)).Yields supply (.error address, run) rest := by
  obtain ⟨⟨outcome, run⟩, left, hexecute, hlast⟩ := Act.yields_bind.mp h
  cases outcome with
  | ok result => cases (Act.yields_pure.mp hlast).1
  | error address =>
    obtain ⟨-, rfl⟩ := Act.yields_pure.mp hlast
    exact ⟨address, run, hexecute⟩

end Program

namespace Placement

/-! ### One draw -/

/-- The weight of a zone for tasks of a colour, if the zone is one of those that the norm weighs. -/
def chance (colour : String) (zone : Nat) (norm : Tree) : ℚ :=
  match (zones colour norm zoneCount : Except Fault (List ℚ)) with
  | .ok weights => weights.getD (zone - 1) 0
  | .error _ => 0

theorem getElem?_chance {colour : String} {zone : Nat} {norm : Tree} {weights : List ℚ}
    (hweights : zones colour norm zoneCount = .ok weights) (hfirst : 1 ≤ zone)
    (hlast : (zone : Int) ≤ zoneCount) :
    weights[zone - 1]? = some (chance colour zone norm) := by
  have hlength : zone - 1 < weights.length := by
    rw [(row_zones hweights).length]
    omega
  rw [chance, hweights]
  dsimp only
  rw [List.getD_eq_getElem?_getD, List.getElem?_eq_getElem hlength, Option.getD_some]

theorem density_chance {colour : String} {zone : Nat} {norm : Tree} {weights : List ℚ}
    (hweights : zones colour norm zoneCount = .ok weights) (hfirst : 1 ≤ zone)
    (hlast : (zone : Int) ≤ zoneCount) :
    (numbered weights).density (.int zone) = chance colour zone norm :=
  density_numbered (row_zones hweights).nonneg hfirst (getElem?_chance hweights hfirst hlast)

/-- The log-weight of a colour and a zone. -/
theorem mass_colour_zone {colour : String} (hcolour : colour ∈ colours) {weights : List ℚ}
    {value : Value} {p : ℚ} (hdensity : (numbered weights).density value = p) (hp : 0 ≤ p) :
    ((Way.score [colourVisit colour, zoneVisit weights value] : LogWeight).mass : ℚ) =
      1 / 3 * p := by
  have hcolours := density_colourVisit hcolour
  have hnonneg : ∀ visit ∈ [colourVisit colour, zoneVisit weights value],
      0 ≤ visit.dist.density visit.value :=
    List.forall_mem_cons.mpr ⟨hcolours.symm ▸ by norm_num,
      List.forall_mem_singleton.mpr (hdensity.symm ▸ hp)⟩
  rw [Way.mass_score hnonneg]
  show (colourVisit colour).dist.density (.text colour) * ((numbered weights).density value * 1) = _
  rw [hcolours, hdensity, mul_one]

section Draw

variable {grammar : Grammar ℚ} {colour : String} {zone : Nat} {constraints : Choices}
  {supply rest : Supply ℚ} {weight : LogWeight} (hcolour : colour ∈ colours) (hfirst : 1 ≤ zone)
  (hlast : (zone : Int) ≤ zoneCount)
  (hobserved : observation (.text colour) (.int zone) = .ok constraints)

/-- Growth under the root rule draws the norm, which weighs the zones for tasks of a colour. -/
structure Draws (grammar : Grammar ℚ) (colour : String) (norm : Tree) (draws rest : List ℚ) :
    Prop where
  grown : ∃ growth : Way ℚ, grammar.Grown 1 grammar.root growth norm ∧ growth.DrawnFrom draws rest
  weighs : ∃ weights : List ℚ, zones colour norm zoneCount = .ok weights

include hcolour hfirst hlast hobserved

/-- A placement that fits an observation has drawn a norm under which it is possible, and its weight
is that of the colour and of the zone. -/
theorem draws_of_generate_some {trace : Trace ℚ LogWeight Placement}
    (h : ((program grammar).generate constraints).Yields supply (some trace, weight) rest) :
    Draws grammar colour trace.result.norm supply.draws rest.draws ∧
      0 < chance colour zone trace.result.norm ∧
      (weight.mass : ℚ) = 1 / 3 * chance colour zone trace.result.norm := by
  obtain ⟨placement, run, hexecute, rfl, rfl⟩ := Program.yields_generate_some.mp h
  obtain ⟨way, records, hcompletes, rfl, rfl⟩ := Program.exists_way_of_yields hexecute
  obtain ⟨growth, weights, hgrown, hweights, rfl⟩ := exists_of_follows_program hcompletes.follows
  obtain ⟨hseen, hplaced, -⟩ := given_observation hobserved
  obtain ⟨hsame, -⟩ := hcompletes.admits.given _ List.mem_cons_self _ hseen
  obtain rfl : placement.colour = colour := Value.text.inj hsame
  obtain ⟨hsame, hpossible⟩ := hcompletes.admits.given
    (zoneVisit weights placement.zone) (by simp) _ hplaced
  have hdensity : (numbered weights).density placement.zone =
      chance placement.colour zone placement.norm := by
    rw [show placement.zone = .int zone from hsame]
    exact density_chance hweights hfirst hlast
  have hpos : 0 < chance placement.colour zone placement.norm := by
    rw [Scale.isImpossible_rat, Visit.density, Distribution.logDensity,
      Scale.logOf_ne_bot] at hpossible
    rw [← hdensity]
    exact hpossible
  obtain ⟨hfresh, hforced⟩ :=
    (ofOrigin_observation hobserved placement.colour growth).2 weights placement.zone
  have hdrawn := Run.drawnFrom_passes hcompletes.admits
  rw [hfresh, Way.drawnFrom_under] at hdrawn
  refine ⟨⟨⟨growth, hgrown, hdrawn⟩, weights, hweights⟩, hpos, ?_⟩
  -- the forced choices are the colour and the zone
  have hscore : (Program.ended (W := LogWeight) (.forcing constraints) supply.draws
      (colourVisit placement.colour ::
        (growth.under (.text "norm") ++ [zoneVisit weights placement.zone]))).forced =
      Way.score [colourVisit placement.colour, zoneVisit weights placement.zone] :=
    hforced ▸ Run.forced_passes _ _
  exact (congrArg (fun score : LogWeight => (score.mass : ℚ)) hscore).trans
    (mass_colour_zone hcolour hdensity hpos.le)

/-- A placement that does not fit an observation has drawn a norm under which it is impossible. -/
theorem draws_of_generate_none
    (h : ((program grammar).generate constraints).Yields supply
      ((none, weight) : Option (Trace ℚ LogWeight Placement) × LogWeight) rest) :
    ∃ norm, Draws grammar colour norm supply.draws rest.draws ∧ chance colour zone norm = 0 := by
  obtain ⟨address, run, hexecute⟩ := Program.exists_of_generate_none h
  obtain ⟨hrun, rfl⟩ := Program.yields_execute_run.mp hexecute
  obtain ⟨way, dist, next, value, hreaches, hadmits, hdraws, hvalue, himpossible⟩ :=
    Sampler.exists_reaches_of_impossible hrun
  obtain ⟨hseen, hplaced, hnorm⟩ := given_observation hobserved
  rw [Distribution.isImpossible_iff] at himpossible
  rcases exists_of_reaches_program hreaches with ⟨-, hchosen⟩ | ⟨_, _, place, -, -, rfl⟩ |
    ⟨seen, norm, growth, weights, hgrown, hweights, rfl, rfl, rfl⟩
  · -- every colour is possible
    obtain ⟨rfl, rfl⟩ := hchosen colour
    obtain rfl := Option.some.inj (hvalue.symm.trans hseen)
    rw [density_colourVisit hcolour] at himpossible
    exact (himpossible (by norm_num)).elim
  · rw [hnorm] at hvalue
    cases hvalue
  · obtain ⟨hsame, -⟩ := hadmits.given _ List.mem_cons_self _ hseen
    obtain rfl : seen = colour := Value.text.inj hsame
    obtain rfl := Option.some.inj (hvalue.symm.trans hplaced)
    have hdensity := density_chance hweights hfirst hlast
    have hnonneg := (row_zones hweights).nonneg _
      (List.mem_of_getElem? (getElem?_chance hweights hfirst hlast))
    rw [hdensity] at himpossible
    have hdrawn := Run.drawnFrom_passes hadmits
    rw [(ofOrigin_observation hobserved seen growth).1, Way.drawnFrom_under, ← hdraws] at hdrawn
    exact ⟨norm, ⟨⟨growth, hgrown, hdrawn⟩, weights, hweights⟩,
      le_antisymm (not_lt.mp himpossible) hnonneg⟩

end Draw

/-- What is drawn for a placement is drawn by growth alone. -/
theorem Draws.exists_simulate {grammar : Grammar ℚ} (hnames : grammar.Distinguished)
    {colour : String} {norm : Tree} {draws rest : List ℚ}
    (h : Draws grammar colour norm draws rest) (records : List Record) :
    ∃ (trace : Trace ℚ LogWeight Tree) (later : List Record),
      (grammar.growth 1 grammar.root).simulate.Yields ⟨draws, records⟩ trace ⟨rest, later⟩ ∧
        trace.result = norm := by
  obtain ⟨growth, hgrown, hdrawn⟩ := h.grown
  have horderly := hgrown.orderly hnames le_rfl
  obtain ⟨trace, later, hyields, hresult, -⟩ :=
    Program.exists_simulate_of_drawnFrom (W := LogWeight) (fun _ hcalls => hgrown.follows hcalls)
      horderly.distinct horderly.exists_recorded hdrawn records
  exact ⟨trace, later, hyields, hresult⟩

/-! ### Many draws -/

/-- The trees that a number of growths under the root rule come to, one after the other. -/
def norms (grammar : Grammar ℚ) : Nat → Act ℚ (List Tree)
  | 0 => return []
  | draws + 1 => do
    let trace : Trace ℚ LogWeight Tree ← (grammar.growth 1 grammar.root).simulate
    return trace.result :: (← norms grammar draws)

/-- The norms under which a task of a colour can be in a zone, with the probability of both. -/
def consistent (colour : String) (zone : Nat) (norms : List Tree) : List (Tree × ℚ) :=
  (norms.filter fun norm => 0 < chance colour zone norm).map fun norm =>
    (norm, 1 / 3 * chance colour zone norm)

/-- Inference draws the norms that as many growths draw, and keeps the consistent ones. -/
theorem exists_norms_of_inferFrom {grammar : Grammar ℚ} (hnames : grammar.Distinguished)
    {colour : String} {zone : Nat} {constraints : Choices} (hcolour : colour ∈ colours)
    (hfirst : 1 ≤ zone) (hlast : (zone : Int) ≤ zoneCount)
    (hobserved : observation (.text colour) (.int zone) = .ok constraints) {n : Nat}
    {kept found : List (Tree × ℚ)} {supply rest : Supply ℚ}
    (h : (inferFrom grammar constraints n kept).Yields supply found rest) :
    ∃ drawn : List Tree,
      (∀ norm ∈ drawn, ∃ weights : List ℚ, zones colour norm zoneCount = .ok weights) ∧
      found = kept.reverse ++ consistent colour zone drawn ∧
      ∀ records, ∃ later, (norms grammar n).Yields ⟨supply.draws, records⟩ drawn
        ⟨rest.draws, later⟩ := by
  induction n generalizing kept supply with
  | zero =>
    obtain ⟨rfl, rfl⟩ := Act.yields_pure.mp h
    exact ⟨[], nofun, (List.append_nil _).symm, fun records =>
      ⟨records, Act.yields_pure.mpr ⟨rfl, rfl⟩⟩⟩
  | succ n ih =>
    obtain ⟨⟨trace, weight⟩, left, hgenerate, hrest⟩ := Act.yields_bind.mp h
    have hstep {norm : Tree} (hdraws : Draws grammar colour norm supply.draws left.draws)
        {next : Supply ℚ} (hnext : next.draws = left.draws) {drawn : List Tree}
        (hnorms : ∀ records, ∃ later, (norms grammar n).Yields ⟨next.draws, records⟩ drawn
          ⟨rest.draws, later⟩) (records : List Record) :
        ∃ later, (norms grammar (n + 1)).Yields ⟨supply.draws, records⟩ (norm :: drawn)
          ⟨rest.draws, later⟩ := by
      obtain ⟨grown, middle, hgrowth, rfl⟩ := hdraws.exists_simulate hnames records
      rw [hnext] at hnorms
      obtain ⟨later, hlater⟩ := hnorms middle
      exact ⟨later, Act.yields_bind.mpr ⟨grown, _, hgrowth, Act.yields_bind.mpr ⟨drawn, _, hlater,
        Act.yields_pure.mpr ⟨rfl, rfl⟩⟩⟩⟩
    cases trace with
    | none =>
      obtain ⟨norm, hdraws, hchance⟩ :=
        draws_of_generate_none hcolour hfirst hlast hobserved hgenerate
      obtain ⟨⟨⟩, _, htell, hrest⟩ := Act.yields_bind.mp hrest
      obtain rfl := Act.yields_tell.mp htell
      obtain ⟨drawn, hweighs, rfl, hnorms⟩ := ih hrest
      refine ⟨norm :: drawn, List.forall_mem_cons.mpr ⟨hdraws.weighs, hweighs⟩, ?_,
        hstep hdraws rfl hnorms⟩
      rw [consistent, consistent, List.filter_cons_of_neg (by simp [hchance])]
    | some trace =>
      obtain ⟨hdraws, hpos, hmass⟩ :=
        draws_of_generate_some hcolour hfirst hlast hobserved hgenerate
      have hpossible : Scale.isImpossible ℚ weight = false := by
        rw [Scale.isImpossible_rat, LogWeight.ne_bot_iff]
        intro hzero
        rw [hzero, NNRat.cast_zero] at hmass
        linarith
      dsimp only at hrest
      rw [hpossible] at hrest
      obtain ⟨importance, _, hexp, hrest⟩ := Act.yields_bind.mp hrest
      obtain ⟨rfl, rfl⟩ := Act.yields_pure.mp hexp
      obtain ⟨drawn, hweighs, rfl, hnorms⟩ := ih hrest
      refine ⟨trace.result.norm :: drawn, List.forall_mem_cons.mpr ⟨hdraws.weighs, hweighs⟩, ?_,
        hstep hdraws rfl hnorms⟩
      rw [consistent, consistent, List.filter_cons_of_pos (by simp [hpos]), List.map_cons,
        List.reverse_cons, List.append_assoc, hmass]
      rfl

/-- **Norms are inferred by their chances.**  When an inference from a task of a colour in a zone
comes to an end, as many growths under the root rule come to an end on the same draws.  Each of
their trees weighs the zones; the inference finds, in order, the trees under which the zone has a
positive weight, each with a third of that weight: the probability of the colour and of the zone,
and of nothing else. -/
theorem infer_eq_consistent {grammar : Grammar ℚ} (hvalid : grammar.validate = .ok ())
    (hstandard : grammar.vocabulary = .standard) (n : Nat) {colour : String} {zone : Nat}
    (hcolour : colour ∈ colours) (hfirst : 1 ≤ zone) (hlast : (zone : Int) ≤ zoneCount)
    {constraints : Choices} (hobserved : observation (.text colour) (.int zone) = .ok constraints)
    {found : List (Tree × ℚ)} {supply rest : Supply ℚ}
    (h : (infer grammar n constraints).Yields supply found rest) :
    ∃ (drawn : List Tree) (records : List Record),
      (norms grammar n).Yields supply drawn ⟨rest.draws, records⟩ ∧
      (∀ norm ∈ drawn, ∃ weights, zones colour norm zoneCount = .ok weights ∧
        weights[zone - 1]? = some (chance colour zone norm)) ∧
      found = (drawn.filter fun norm => 0 < chance colour zone norm).map fun norm =>
        (norm, 1 / 3 * chance colour zone norm) := by
  obtain ⟨_, _, hinfer, hrest⟩ := Act.yields_bind.mp h
  obtain ⟨⟨⟩, _, htell, hend⟩ := Act.yields_bind.mp hrest
  obtain rfl := Act.yields_tell.mp htell
  obtain ⟨rfl, rfl⟩ := Act.yields_pure.mp hend
  obtain ⟨drawn, hweighs, rfl, hnorms⟩ := exists_norms_of_inferFrom
    (Grammar.distinguished_of_validate hvalid hstandard) hcolour hfirst hlast hobserved hinfer
  obtain ⟨records, hnorms⟩ := hnorms supply.records
  refine ⟨drawn, records, hnorms, fun norm hnorm => ?_, rfl⟩
  obtain ⟨weights, hweights⟩ := hweighs norm hnorm
  exact ⟨weights, hweights, getElem?_chance hweights hfirst hlast⟩

theorem validate_standard : (Grammar.standard : Grammar ℚ).validate = .ok () :=
  Grammar.validate_of_isOk (by decide +kernel)

/-- Of three norms drawn for a red task in the first zone two are kept. -/
theorem exists_infer_standard :
    ∃ (constraints : Choices) (found : List (Tree × ℚ)) (rest : Supply ℚ),
      observation (.text "red") (.int 1) = .ok constraints ∧
      (infer .standard (3 : Nat) constraints).Yields
        ⟨[1 / 2, 0, 0, 0, 0, 3 / 4, 0, 0, 0, 0, 0, 0], []⟩ found rest ∧
      found.map Prod.snd = [1 / 3, 1 / 9] := by
  obtain ⟨constraints, hobserved⟩ : ∃ constraints,
      observation (.text "red") (.int 1) = .ok constraints := ⟨_, rfl⟩
  have hruns : (infer (.standard : Grammar ℚ) (3 : Nat) constraints).any
      ⟨[1 / 2, 0, 0, 0, 0, 3 / 4, 0, 0, 0, 0, 0, 0], []⟩
        (fun found _ => found.map Prod.snd == [1 / 3, 1 / 9]) = true := by
    cases hobserved
    decide +kernel
  obtain ⟨found, rest, hinfer, hweights⟩ := Act.exists_yields hruns
  exact ⟨constraints, found, rest, hobserved, hinfer, eq_of_beq hweights⟩

/-- A red task in the first zone: an obligation to put it there and the lack of a norm are kept, and
a prohibition to put it there is not. -/
theorem infer_eq_consistent_standard :
    ∃ (constraints : Choices) (found : List (Tree × ℚ)) (drawn : List Tree) (rest : Supply ℚ)
      (records : List Record),
      observation (.text "red") (.int 1) = .ok constraints ∧
      (infer .standard (3 : Nat) constraints).Yields
        ⟨[1 / 2, 0, 0, 0, 0, 3 / 4, 0, 0, 0, 0, 0, 0], []⟩ found rest ∧
      (norms .standard 3).Yields ⟨[1 / 2, 0, 0, 0, 0, 3 / 4, 0, 0, 0, 0, 0, 0], []⟩ drawn
        ⟨rest.draws, records⟩ ∧
      found = (drawn.filter fun norm => 0 < chance "red" 1 norm).map (fun norm =>
        (norm, 1 / 3 * chance "red" 1 norm)) ∧
      found.map Prod.snd = [1 / 3, 1 / 9] := by
  obtain ⟨constraints, found, rest, hobserved, hinfer, hweights⟩ := exists_infer_standard
  obtain ⟨drawn, records, hnorms, -, hfound⟩ := infer_eq_consistent validate_standard rfl 3
    (show "red" ∈ colours from List.mem_cons_self) le_rfl (by decide) hobserved hinfer
  exact ⟨constraints, found, drawn, rest, records, hobserved, hinfer, hnorms, hfound, hweights⟩

end Placement

end Deontic
