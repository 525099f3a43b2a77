import Deontic.Proofs.Forcing
import Deontic.Proofs.Inference
import Deontic.Proofs.Zoning

/-! Norms inferred under any constraints.  Under a grammar that passes its check and whose zones are
those that there are, placements can be relied on (`reliable_program`): a placement drawn under
constraints is kept, or dropped because a constraint is impossible in it, or it leaves a constraint
out.  Inference goes through such draws in turn (`Rounds`).  It finds the norms that were kept, with
the probabilities of their constrained choices, and fails at the first draw that leaves a constraint
out (`infer_rounds`). -/

namespace Deontic

/-- One word stands for zones. -/
theorem Vocabulary.eq_of_names_zone {word : String}
    (h : Vocabulary.standard.Names word (.leaf .zone)) : word = "Zone" := by
  obtain ⟨found, hfound, hshape⟩ := h
  rw [lookup] at hfound
  split at hfound
  · next hentry =>
    cases hfound
    have hall : ∀ entry ∈ Vocabulary.standard.words.entries,
        entry.2.shape = .leaf .zone → entry.1 = "Zone" := by decide
    exact hall _ (Table.mem_of_get?_eq hentry) hshape
  · cases hfound

namespace Placement

/-! ### Placements that can be relied on -/

/-- The labels of zones are the numerals of those that there are. -/
def Zoned (grammar : Grammar ℚ) : Prop :=
  ∀ labels, grammar.textWeights.get? "Zone" = some labels →
    ∀ label ∈ labels.keys, label ∈ ["1", "2", "3"]

theorem exists_zone_of_label {label : String} (h : label ∈ ["1", "2", "3"]) :
    ∃ zone, Names label zone ∧ 1 ≤ zone ∧ zone ≤ zoneCount := by
  have hone : Names "1" 1 := .single (c := '1') (by decide) (by decide) (by decide)
  have htwo : Names "2" 2 := .single (c := '2') (by decide) (by decide) (by decide)
  have hthree : Names "3" 3 := .single (c := '3') (by decide) (by decide) (by decide)
  simp only [List.mem_cons, List.not_mem_nil, or_false] at h
  rcases h with rfl | rfl | rfl
  · exact ⟨1, hone, by decide⟩
  · exact ⟨2, htwo, by decide⟩
  · exact ⟨3, hthree, by decide⟩

theorem Spread.proper {count : Int} {out : Int → Prop} {weights : List ℚ}
    (h : Spread count out weights) : (numbered weights).Proper := by
  refine ⟨fair_numbered h.nonneg, ?_⟩
  rw [List.map_map]
  have hweights := congrArg List.sum (List.zipIdx_map_fst 0 weights)
  exact (hweights.trans h.sum).symm ▸ one_pos

/-- If the zone of a norm is one of those that there are, a zone can be drawn. -/
theorem exists_zones (colour : String) {norm : Tree}
    (hlabels : ∀ kind label, Bears colour kind label norm →
      ∃ zone, Names label zone ∧ 1 ≤ zone ∧ zone ≤ zoneCount) :
    ∃ weights : List ℚ, zones colour norm zoneCount = .ok weights ∧ (numbered weights).Proper := by
  have hmax : zoneCount ≤ maxZones := by decide
  by_cases ho : ∃ label, Bears colour .obligation label norm
  · obtain ⟨label, h⟩ := ho
    obtain ⟨zone, hnames, hzone⟩ := hlabels _ _ h
    have hzones := zones_obligation h zoneCount
    rw [checkCount_of_le (by decide) hmax, zoneIndex_of_names hnames hzone] at hzones
    exact ⟨_, hzones, (spread_obliged hzone).proper⟩
  by_cases hp : ∃ label, Bears colour .prohibition label norm
  · obtain ⟨label, h⟩ := hp
    obtain ⟨zone, hnames, hzone⟩ := hlabels _ _ h
    have hzones := zones_prohibition_of_zone h hzone hmax (zoneIndex_of_names hnames hzone)
    rw [if_neg (by decide)] at hzones
    exact ⟨_, hzones, (spread_prohibited hzone (by decide)).proper⟩
  obtain ⟨weights, hweights, hspread⟩ := spread_uniform (show 1 ≤ zoneCount by decide) hmax
  refine ⟨weights, ?_, hspread.proper⟩
  rw [zones_of_not_bears (not_exists.mp ho) (not_exists.mp hp), hweights]

/-- A norm that is grown names one of the zones that there are. -/
theorem exists_zone_of_bears {grammar : Grammar ℚ} (hstandard : grammar.vocabulary = .standard)
    (hzoned : Zoned grammar) {rule colour label : String} {kind : BranchKind} {norm : Tree}
    (hnorm : grammar.Derives rule norm) (h : Bears colour kind label norm) :
    ∃ zone, Names label zone ∧ 1 ≤ zone ∧ zone ≤ zoneCount := by
  obtain ⟨-, first, second, whole⟩ := h
  cases hnorm with
  | @pair _ _ _ _ _ _ _ _ _ _ hright =>
    cases hright with
    | @leaf _ word _ _ _ hnames htext =>
      obtain ⟨labels, p, hlabels, hlabel, -⟩ := htext
      rw [hstandard] at hnames
      obtain rfl := Vocabulary.eq_of_names_zone hnames
      exact exists_zone_of_label (hzoned labels hlabels label (Table.mem_keys_of_get? hlabel))

theorem lasts_task (calls n : Nat) :
    ((task calls : Sampler ℚ String).under (.text "task")).Lasts n := by
  let weights : Table String ℚ :=
    ⟨colours.map fun colour => (colour, Scale.ratio 1 colours.length), by decide⟩
  have hproper : (Distribution.ofTexts weights).Proper := ⟨fair_colours, by decide +kernel⟩
  have htask : (task calls : Sampler ℚ String).Lasts (n + 1) := by
    change ((Sampler.sample (.text "color") (.ofTexts weights)).bind _).Lasts (n + 1)
    refine Sampler.lasts_choice hproper fun value hvalue => ?_
    obtain ⟨colour, rfl, -⟩ := Distribution.exists_text_of_possible hvalue
    trivial
  exact (htask.mono (Nat.le_succ n)).under _

theorem lasts_place {colour : String} {norm : Tree} {weights : List ℚ}
    (hweights : zones colour norm zoneCount = .ok weights) (hproper : (numbered weights).Proper)
    (n : Nat) : (place colour norm).Lasts n := by
  have hrest : ((Sampler.ofExcept (zones colour norm zoneCount)).bind fun weights : List ℚ =>
      (Sampler.sample (.text "zone") (numbered weights)).bind fun zone =>
        .pure (⟨colour, norm, zone⟩ : Placement)).Lasts n := by
    have hzone : ((Sampler.sample (.text "zone") (numbered weights)).bind fun zone =>
        .pure (⟨colour, norm, zone⟩ : Placement)).Lasts (n + 1) :=
      Sampler.lasts_choice hproper fun _ _ => trivial
    rw [hweights]
    exact hzone.mono (Nat.le_succ n)
  cases hruled : isRuled norm with
  | true | false =>
    rw [place, hruled]
    exact hrest

section Program

variable {grammar : Grammar ℚ}

/-- A placement does not fail before it has made as many choices as it may nest calls. -/
theorem lasts_program (hready : grammar.Ready) (hzoned : Zoned grammar) (calls : Nat) :
    (program grammar calls).Lasts calls := by
  rw [program_eq]
  refine (lasts_task calls calls).bind fun _ colour _ => ?_
  refine ((hready.lasts_grow calls 1 hready.root).under _).bind_possible
    fun way norm hway hpossible => ?_
  obtain ⟨growth, rfl, hgrowth⟩ := Sampler.follows_under.mp hway
  have hnorm : grammar.Derives grammar.root norm :=
    (Grammar.Grown.of_follows hgrowth).derives fun visit hvisit => Scale.isImpossible_rat.mpr
      (hpossible (visit.under (.text "norm")) (List.mem_map_of_mem hvisit))
  obtain ⟨weights, hweights, hproper⟩ := exists_zones colour fun _ _ hbears =>
    exists_zone_of_bears hready.standard hzoned hnorm hbears
  exact lasts_place hweights hproper calls

theorem steadfast_program (grammar : Grammar ℚ) : (program grammar).Steadfast := by
  have htask : Program.Steadfast (task : Program ℚ String) := .const (task 0)
  have htask' : Program.Steady (task : Program ℚ String) := .const (task 0)
  have hgrowth : (grammar.growth 1 grammar.root).Steadfast :=
    fun _ _ _ _ _ _ h hlength => (Grammar.Begun.of_reaches h).reaches hlength
  refine (htask.under _).bind (htask'.under _) fun colour => ?_
  exact (hgrowth.under _).bind ((Grammar.steady_growth grammar _ _).under _) fun norm => .const _

/-- The addresses of a placement do not stand in each other's way. -/
theorem separate_addresses {inner : List Path} (h : Path.Orderly 0 inner) :
    Path.Separate ([.text "task", .text "color"] ::
      (inner.map (.text "norm" :: ·) ++ [[.text "zone"]])) := by
  have hcolour : Path.Separate [[.text "task", .text "color"]] :=
    .singleton rfl (List.cons_ne_nil _ _)
  have hzone : Path.Separate [[.text "zone"]] := .singleton rfl (List.cons_ne_nil _ _)
  refine hcolour.append ((h.separate.under "norm").append hzone fun a ha b hb => ?_)
    fun a ha b hb => ?_
  · obtain ⟨place, -, rfl⟩ := List.mem_map.mp ha
    obtain rfl := List.mem_singleton.mp hb
    exact ⟨_, _, _, _, rfl, rfl, by decide⟩
  · obtain rfl := List.mem_singleton.mp ha
    rcases List.mem_append.mp hb with hb | hb
    · obtain ⟨place, -, rfl⟩ := List.mem_map.mp hb
      exact ⟨_, _, _, _, rfl, rfl, by decide⟩
    · obtain rfl := List.mem_singleton.mp hb
      exact ⟨_, _, _, _, rfl, rfl, by decide⟩

theorem separate_program (hnames : grammar.Distinguished) {calls : Nat} {way : Way ℚ}
    {address : Path} {dist : Distribution ℚ} {next : Value → Sampler ℚ Placement}
    (h : (program grammar calls).Reaches way (.choose address dist next)) :
    Path.Separate (way.addresses ++ [address]) := by
  rcases exists_of_reaches_program h with
    ⟨rfl, hchosen⟩ | ⟨colour, inner, place, hbegun, rfl, rfl⟩ |
      ⟨colour, norm, growth, weights, hgrown, -, rfl, rfl, -⟩
  · obtain ⟨rfl, -⟩ := hchosen "red"
    exact (separate_addresses ⟨.nil, nofun⟩).left
  · have hplaces := separate_addresses (hbegun.orderly hnames le_rfl)
    rw [List.map_append, ← Way.addresses_under] at hplaces
    exact hplaces.left
  · have hplaces := separate_addresses (hgrown.orderly hnames le_rfl)
    rw [← Way.addresses_under] at hplaces
    exact hplaces

/-- Under a grammar that passes its check and whose zones are those that there are, placements can
be relied on. -/
theorem reliable_program (hvalid : grammar.validate = .ok ())
    (hstandard : grammar.vocabulary = .standard) (hzoned : Zoned grammar) :
    (program grammar).Reliable where
  steady := steady_program grammar
  steadfast := steadfast_program grammar
  lasts := lasts_program (Grammar.ready_of_validate hvalid hstandard) hzoned
  separate _ _ _ _ _ h := separate_program (Grammar.distinguished_of_validate hvalid hstandard) h

end Program

/-! ### Draws in turn -/

/-- So many placements drawn in turn under constraints, none of which leaves a constraint out: those
that are kept give their norms, with the probabilities of the constrained choices. -/
inductive Rounds (grammar : Grammar ℚ) (constraints : Choices) :
    Nat → List ℚ → List (Tree × ℚ) → List ℚ → Prop
  | done (draws : List ℚ) : Rounds grammar constraints 0 draws [] draws
  | kept {n : Nat} {draws middle rest : List ℚ} {placement : Placement} {probability : ℚ}
      {norms : List (Tree × ℚ)}
      (hfirst : (program grammar).ComesTo constraints draws middle (.kept placement probability))
      (hothers : Rounds grammar constraints n middle norms rest) :
      Rounds grammar constraints (n + 1) draws ((placement.norm, probability) :: norms) rest
  | dropped {n : Nat} {draws middle rest : List ℚ} {norms : List (Tree × ℚ)}
      (hfirst : (program grammar).ComesTo constraints draws middle .dropped)
      (hothers : Rounds grammar constraints n middle norms rest) :
      Rounds grammar constraints (n + 1) draws norms rest

/-- Among so many placements drawn in turn, one leaves a constraint out, and none does before. -/
def Strays (grammar : Grammar ℚ) (constraints : Choices) (n : Nat) (draws : List ℚ)
    (address : Path) : Prop :=
  ∃ done norms left rest, done < n ∧ Rounds grammar constraints done draws norms left ∧
    (program grammar).ComesTo constraints left rest (.strayed address)

/-- Inference uses all draws up before it has drawn so many placements. -/
def UsesUp (grammar : Grammar ℚ) (constraints : Choices) (n : Nat) (draws : List ℚ) : Prop :=
  ∀ found records, ∃ later, (inferFrom grammar constraints n found).run.run ⟨draws, records⟩ =
    (.error (.supply .exhausted), ⟨[], later⟩)

/-- The norm that a placement gives with its probability, if it is kept. -/
def keptNorms : Outcome Placement → List (Tree × ℚ)
  | .kept placement probability => [(placement.norm, probability)]
  | .dropped | .strayed _ => []

section Infer

variable {grammar : Grammar ℚ} (h : (program grammar).Reliable) {constraints : Choices}
  {draws middle rest : List ℚ} {norms : List (Tree × ℚ)}
include h

/-- Inference goes on after a placement that leaves no constraint out. -/
theorem inferFrom_next {outcome : Outcome Placement}
    (hfirst : (program grammar).ComesTo constraints draws middle outcome)
    (hgoes : ∀ address, outcome ≠ .strayed address) (n : Nat) (found : List (Tree × ℚ))
    (records : List Record) :
    ∃ next, (inferFrom grammar constraints (n + 1) found).run.run ⟨draws, records⟩ =
      (inferFrom grammar constraints n (keptNorms outcome ++ found)).run.run ⟨middle, next⟩ := by
  cases outcome with
  | kept placement probability =>
    obtain ⟨trace, weight, next, hyields, rfl, rfl, hpossible⟩ :=
      h.generates ⟨draws, records⟩ hfirst
    refine ⟨next, (hyields.run_bind _).trans ?_⟩
    dsimp only
    rw [hpossible]
    rfl
  | dropped =>
    obtain ⟨weight, next, hyields⟩ := h.drops ⟨draws, records⟩ hfirst
    exact ⟨.discarded :: next, (hyields.run_bind _).trans rfl⟩
  | strayed address => exact (hgoes address rfl).elim

/-- Inference finds the norms that are kept. -/
theorem yields_inferFrom {n : Nat} (hrounds : Rounds grammar constraints n draws norms rest)
    (found : List (Tree × ℚ)) (records : List Record) :
    ∃ later, (inferFrom grammar constraints n found).Yields ⟨draws, records⟩
      (found.reverse ++ norms) ⟨rest, later⟩ := by
  induction hrounds generalizing found records with
  | done draws => exact ⟨records, Act.yields_pure.mpr ⟨(List.append_nil _).symm, rfl⟩⟩
  | @kept n _ _ _ placement probability _ hfirst _ ih =>
    obtain ⟨next, hstep⟩ := inferFrom_next h hfirst nofun n found records
    obtain ⟨later, hlater⟩ := ih ((placement.norm, probability) :: found) next
    rw [List.reverse_cons, List.append_assoc] at hlater
    exact ⟨later, hstep.trans hlater⟩
  | @dropped n _ _ _ _ hfirst _ ih =>
    obtain ⟨next, hstep⟩ := inferFrom_next h hfirst nofun n found records
    obtain ⟨later, hlater⟩ := ih found next
    exact ⟨later, hstep.trans hlater⟩

/-- Inference fails at a draw that leaves a constraint out. -/
theorem fails_inferFrom {n done : Nat} {address : Path} (hdone : done < n)
    (hrounds : Rounds grammar constraints done draws norms middle)
    (hlast : (program grammar).ComesTo constraints middle rest (.strayed address))
    (found : List (Tree × ℚ)) (records : List Record) :
    (inferFrom grammar constraints n found).Fails ⟨draws, records⟩
      (.execution (.unvisited address)) := by
  induction hrounds generalizing found records n with
  | done draws =>
    obtain ⟨n, rfl⟩ := Nat.exists_eq_succ_of_ne_zero hdone.ne_bot
    exact (h.strays ⟨draws, records⟩ hlast).bind _
  | kept hfirst _ ih | dropped hfirst _ ih =>
    obtain ⟨n, rfl⟩ := Nat.exists_eq_succ_of_ne_zero (Nat.ne_zero_of_lt hdone)
    obtain ⟨next, hstep⟩ := inferFrom_next h hfirst nofun n found records
    obtain ⟨supply, hfails⟩ := ih (Nat.lt_of_succ_lt_succ hdone) hlast _ next
    exact ⟨supply, hstep.trans hfails⟩

section Next

variable {outcome : Outcome Placement} {n : Nat}
  (hfirst : (program grammar).ComesTo constraints draws middle outcome)
  (hgoes : ∀ address, outcome ≠ .strayed address)
include hfirst hgoes

omit h in
theorem Rounds.next (hlater : Rounds grammar constraints n middle norms rest) :
    Rounds grammar constraints (n + 1) draws (keptNorms outcome ++ norms) rest := by
  cases outcome with
  | kept placement probability => exact .kept hfirst hlater
  | dropped => exact .dropped hfirst hlater
  | strayed address => exact (hgoes address rfl).elim

omit h in
theorem Strays.next {address : Path} (hlater : Strays grammar constraints n middle address) :
    Strays grammar constraints (n + 1) draws address := by
  obtain ⟨done, norms, left, rest, hdone, hrounds, hlast⟩ := hlater
  exact ⟨done + 1, _, left, rest, Nat.succ_lt_succ hdone, hrounds.next hfirst hgoes, hlast⟩

theorem UsesUp.next (hlater : UsesUp grammar constraints n middle) :
    UsesUp grammar constraints (n + 1) draws := by
  intro found records
  obtain ⟨next, hstep⟩ := inferFrom_next h hfirst hgoes n found records
  obtain ⟨later, hends⟩ := hlater (keptNorms outcome ++ found) next
  exact ⟨later, hstep.trans hends⟩

end Next

/-- The draws are used up, or so many placements are drawn in turn, or one of them leaves a
constraint out. -/
theorem usesUp_or_rounds (n : Nat) (hdraws : UnitDraws draws) :
    UsesUp grammar constraints n draws ∨
    (∃ norms rest, Rounds grammar constraints n draws norms rest) ∨
    ∃ address, Strays grammar constraints n draws address := by
  induction n generalizing draws with
  | zero => exact .inr (.inl ⟨[], draws, .done draws⟩)
  | succ n ih =>
    by_cases hcomes : ∃ outcome middle, (program grammar).ComesTo constraints draws middle outcome
    · obtain ⟨outcome, middle, hfirst⟩ := hcomes
      have hlater := ih fun draw hdraw => hdraws draw (hfirst.suffix.subset hdraw)
      by_cases hgoes : ∀ address, outcome ≠ .strayed address
      · rcases hlater with husesup | ⟨norms, rest, hrounds⟩ | ⟨address, hstrays⟩
        · exact .inl (husesup.next h hfirst hgoes)
        · exact .inr (.inl ⟨_, rest, hrounds.next hfirst hgoes⟩)
        · exact .inr (.inr ⟨address, hstrays.next hfirst hgoes⟩)
      · obtain ⟨address, rfl⟩ := not_forall_not.mp hgoes
        exact .inr (.inr ⟨address, 0, [], draws, middle, Nat.succ_pos n, .done draws, hfirst⟩)
    · refine .inl fun found records => ?_
      obtain ⟨later, hends⟩ :=
        (h.exists_comesTo constraints ⟨draws, records⟩ hdraws).resolve_right hcomes
      exact ⟨later, Act.run_bind_error (Act.run_bind_error hends _) _⟩

theorem yields_infer {n : Int} (hrounds : Rounds grammar constraints n.toNat draws norms rest)
    (records : List Record) :
    ∃ later, (infer grammar n constraints).Yields ⟨draws, records⟩ norms ⟨rest, later⟩ := by
  obtain ⟨later, hyields⟩ := yields_inferFrom h hrounds [] records
  exact ⟨.kept norms.length n :: later, (hyields.run_bind _).trans rfl⟩

theorem fails_infer {n : Int} {address : Path}
    (hstrays : Strays grammar constraints n.toNat draws address) (records : List Record) :
    (infer grammar n constraints).Fails ⟨draws, records⟩ (.execution (.unvisited address)) := by
  obtain ⟨done, norms, left, rest, hdone, hrounds, hlast⟩ := hstrays
  exact (fails_inferFrom h hdone hrounds hlast [] records).bind _

end Infer

/-- **Draws that do not fit are dropped.**  Whatever the constraints, inference finds the norms of
the placements that are kept, with the probabilities of their constrained choices, exactly if no
placement that it draws leaves a constraint out.  It fails over a constraint exactly if one of them
does, and else only because all draws are used up. -/
theorem infer_rounds {grammar : Grammar ℚ} (hvalid : grammar.validate = .ok ())
    (hstandard : grammar.vocabulary = .standard) (hzoned : Zoned grammar) (n : Int)
    (constraints : Choices) {supply : Supply ℚ} (hdraws : UnitDraws supply.draws) :
    (∀ norms rest, (∃ records, (infer grammar n constraints).Yields supply norms ⟨rest, records⟩) ↔
      Rounds grammar constraints n.toNat supply.draws norms rest) ∧
    (∀ address, (infer grammar n constraints).Fails supply (.execution (.unvisited address)) ↔
      Strays grammar constraints n.toNat supply.draws address) ∧
    ∀ fault rest, (infer grammar n constraints).run.run supply = (.error fault, rest) →
      (fault = .supply .exhausted ∧ rest.draws = []) ∨
        ∃ address, fault = .execution (.unvisited address) := by
  have hreliable := reliable_program hvalid hstandard hzoned
  have hall : (∃ later, (infer grammar n constraints).run.run supply =
        (.error (.supply .exhausted), ⟨[], later⟩)) ∨
      (∃ norms rest, Rounds grammar constraints n.toNat supply.draws norms rest) ∨
      ∃ address, Strays grammar constraints n.toNat supply.draws address := by
    refine (usesUp_or_rounds hreliable n.toNat hdraws).imp_left fun husesup => ?_
    obtain ⟨later, hends⟩ := husesup [] supply.records
    exact ⟨later, Act.run_bind_error hends _⟩
  refine ⟨fun norms rest => ⟨?_, fun hrounds => yields_infer hreliable hrounds _⟩,
    fun address => ⟨?_, fun hstrays => fails_infer hreliable hstrays _⟩, ?_⟩
  · rintro ⟨records, hyields⟩
    rcases hall with ⟨later, hends⟩ | ⟨norms', rest', hrounds⟩ | ⟨address, hstrays⟩
    · exact nomatch hyields.symm.trans hends
    · obtain ⟨_, hyields'⟩ := yields_infer hreliable hrounds supply.records
      obtain ⟨rfl, hrest⟩ := hyields.unique hyields'
      cases hrest
      exact hrounds
    · exact ((fails_infer hreliable hstrays _).not_yields hyields).elim
  · intro hfault
    rcases hall with ⟨later, hends⟩ | ⟨norms, rest, hrounds⟩ | ⟨address', hstrays⟩
    · exact nomatch hfault.unique ⟨_, hends⟩
    · obtain ⟨_, hyields⟩ := yields_infer hreliable hrounds supply.records
      exact (hfault.not_yields hyields).elim
    · cases hfault.unique (fails_infer hreliable hstrays _)
      exact hstrays
  · intro fault rest hrun
    rcases hall with ⟨later, hends⟩ | ⟨norms, rest', hrounds⟩ | ⟨address, hstrays⟩
    · cases hrun.symm.trans hends
      exact .inl ⟨rfl, rfl⟩
    · obtain ⟨_, hyields⟩ := yields_infer hreliable hrounds supply.records
      exact nomatch hrun.symm.trans hyields
    · exact .inr ⟨address, Act.Fails.unique ⟨rest, hrun⟩ (fails_infer hreliable hstrays _)⟩

/-- The first part of the norm is the colour red. -/
def redPart : Choices :=
  .nested (.text "norm") (.value (Grammar.key 2 "Colour") (.text "red") .empty) .empty

theorem zoned_standard : Zoned .standard := by
  intro labels hlabels
  cases hlabels
  decide +kernel

/-- Whether a computation has failed over a constraint that was not visited. -/
def isUnvisited {α : Type} : Except Fault α → Bool
  | .error (.execution (.unvisited _)) => true
  | _ => false

/-- The lack of a norm has no parts, so it leaves the colour of the first part out. -/
theorem fails_redPart : ∃ address, (infer (.standard : Grammar ℚ) 1 redPart).Fails
    ⟨[1 / 10, 1 / 10, 1 / 10, 1 / 10], []⟩ (.execution (.unvisited address)) := by
  have hruns : isUnvisited ((infer (.standard : Grammar ℚ) 1 redPart).run.run
      ⟨[1 / 10, 1 / 10, 1 / 10, 1 / 10], []⟩).1 = true := by decide +kernel
  unfold isUnvisited at hruns
  split at hruns
  · next address hfails => exact ⟨address, _, Prod.ext hfails rfl⟩
  · cases hruns

/-- Of three norms drawn for a red task in the first zone two are kept.  A norm without parts leaves
the colour of the first part out. -/
theorem infer_rounds_standard :
    ∃ (constraints : Choices) (norms : List (Tree × ℚ)) (rest : List ℚ) (address : Path),
      observation (.text "red") (.int 1) = .ok constraints ∧
      Rounds .standard constraints 3 [1 / 2, 0, 0, 0, 0, 3 / 4, 0, 0, 0, 0, 0, 0] norms rest ∧
      norms.map Prod.snd = [1 / 3, 1 / 9] ∧
      Strays .standard redPart 1 [1 / 10, 1 / 10, 1 / 10, 1 / 10] address := by
  have hunit : UnitDraws
      (⟨[1 / 2, 0, 0, 0, 0, 3 / 4, 0, 0, 0, 0, 0, 0], []⟩ : Supply ℚ).draws := by decide +kernel
  have hunit' : UnitDraws (⟨[1 / 10, 1 / 10, 1 / 10, 1 / 10], []⟩ : Supply ℚ).draws := by
    decide +kernel
  obtain ⟨constraints, norms, rest, hobserved, hinfer, hweights⟩ := exists_infer_standard
  obtain ⟨address, hfails⟩ := fails_redPart
  exact ⟨constraints, norms, rest.draws, address, hobserved,
    ((infer_rounds validate_standard rfl zoned_standard 3 constraints hunit).1 norms
      rest.draws).mp ⟨rest.records, hinfer⟩,
    hweights,
    ((infer_rounds validate_standard rfl zoned_standard 1 redPart hunit').2.1 address).mp hfails⟩

/-- The first part of a norm can be red, and yet to draw one norm under the constraint that it is
fails, because the norm that is drawn has no parts. -/
theorem infer_redPart_fails :
    (Grammar.standard : Grammar ℚ).validate = .ok () ∧
    (Grammar.standard : Grammar ℚ).vocabulary = .standard ∧ Zoned .standard ∧
    (∃ (supply rest : Supply ℚ) (trace : Trace ℚ LogWeight Placement), UnitDraws supply.draws ∧
      (program .standard).simulate.Yields supply trace rest ∧ trace.score ≠ ⊥ ∧
      ∀ path value, redPart.flatten.get? path = some value →
        trace.choices.flatten.get? path = some value) ∧
    UnitDraws ([1 / 10, 1 / 10, 1 / 10, 1 / 10] : List ℚ) ∧
    ∃ address, (infer (.standard : Grammar ℚ) 1 redPart).Fails
      ⟨[1 / 10, 1 / 10, 1 / 10, 1 / 10], []⟩ (.execution (.unvisited address)) := by
  refine ⟨validate_standard, rfl, zoned_standard, ?_, by decide +kernel, fails_redPart⟩
  have hruns : (program (.standard : Grammar ℚ)).simulate.any ⟨[0, 1 / 2, 0, 0, 0, 0, 0], []⟩
      (fun (trace : Trace ℚ LogWeight Placement) _ => !Scale.isImpossible ℚ trace.score &&
        (trace.choices.flatten.get? [.text "norm", Grammar.key 2 "Colour"]).any
          (.text "red" == ·)) = true := by decide +kernel
  obtain ⟨trace, rest, hsimulate, hall⟩ := Act.exists_yields hruns
  obtain ⟨hpossible, hred⟩ := Bool.and_eq_true_iff.mp hall
  rw [Bool.not_eq_true'] at hpossible
  obtain ⟨seen, hseen, heq⟩ := (Option.any_eq_true _ _).mp hred
  obtain rfl := Value.text_beq heq
  refine ⟨_, rest, trace, by decide +kernel, hsimulate,
    Scale.isImpossible_rat.mp hpossible, fun path value hvalue => ?_⟩
  obtain ⟨entry, hentry, heq⟩ := Table.exists_of_get?_isSome (Option.isSome_of_eq_some hvalue)
  obtain rfl : entry = ([.text "norm", Grammar.key 2 "Colour"], .text "red") :=
    List.mem_singleton.mp hentry
  rw [← Table.get?_congr _ heq] at hvalue ⊢
  exact hseen.trans hvalue

end Placement

end Deontic
