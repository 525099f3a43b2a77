import Deontic.Proofs.Beginnings
import Deontic.Proofs.Programs
import Deontic.Proofs.Recording

/-! Ways of placements.  A placement is a colour, a norm that is grown, and a zone drawn by the
weights that the norm gives (`exists_of_follows_program`); a placement that is not complete has come
to one of these choices (`exists_of_reaches_program`).  The density of a zone's number is the weight
of the zone (`density_numbered`). -/

namespace Deontic.Placement

/-! ### Weights -/

/-- Zones numbered from one, by their weights. -/
def numbered (weights : List ℚ) : Distribution ℚ :=
  .categorical (weights.zipIdx.map fun (p, i) => (.int (i + 1), p))

/-- The density of a zone's number is the weight of the zone. -/
theorem density_numbered {weights : List ℚ} (hnonneg : ∀ p ∈ weights, 0 ≤ p) {zone : Nat} {p : ℚ}
    (hzone : 1 ≤ zone) (hp : weights[zone - 1]? = some p) :
    (numbered weights).density (.int zone) = p := by
  have hentry : ((Value.int zone, p) : Value × ℚ) ∈
      weights.zipIdx.map fun (p, i) => (Value.int (i + 1), p) := by
    refine List.mem_map.mpr ⟨(p, zone - 1), List.mem_zipIdx_iff_getElem?.mpr hp, ?_⟩
    have hcast : (((zone - 1 : Nat) : Int) + 1) = zone := by omega
    show (Value.int (((zone - 1 : Nat) : Int) + 1), p) = _
    rw [hcast]
  exact Distribution.density_of_mem (fair_numbered hnonneg) hentry

/-! ### Ways -/

def colourVisit (colour : String) : Visit ℚ :=
  ⟨[.text "task", .text "color"],
    .categorical (colours.map fun colour => (.text colour, Scale.ratio 1 colours.length)),
    .text colour⟩

def zoneVisit (weights : List ℚ) (zone : Value) : Visit ℚ :=
  ⟨[.text "zone"], numbered weights, zone⟩

/-- The rest of a placement, when its colour is chosen and its norm is grown. -/
def place (colour : String) (norm : Tree) : Sampler ℚ Placement := do
  if !isRuled norm then Sampler.tell (.unruled norm)
  let weights ← (zones colour norm zoneCount : Except Fault (List ℚ))
  let zone ← Sampler.sample (.text "zone") (numbered weights)
  return ⟨colour, norm, zone⟩

theorem program_eq (grammar : Grammar ℚ) (calls : Nat) : program grammar calls =
    ((task calls).under (.text "task")).bind fun colour =>
      ((grammar.grow calls 1 grammar.root).under (.text "norm")).bind fun norm =>
        place colour norm := rfl

theorem follows_task {calls : Nat} {way : Way ℚ} {colour : String}
    (h : ((task calls : Sampler ℚ String).under (.text "task")).Follows way colour) :
    way = [colourVisit colour] := by
  obtain ⟨inner, rfl, htask⟩ := Sampler.follows_under.mp h
  obtain ⟨chosen, _, _, rfl, hchosen, hrest⟩ := Sampler.follows_bind.mp htask
  obtain rfl := Sampler.follows_sample.mp hchosen
  cases htext : chosen.text? with
  | none => rw [htext] at hrest; exact (Sampler.not_follows_fail hrest).elim
  | some text =>
    rw [htext] at hrest
    obtain ⟨rfl, rfl⟩ := Sampler.follows_pure.mp hrest
    rw [Value.eq_text_of_text? htext]
    rfl

theorem follows_place {colour : String} {norm : Tree} {way : Way ℚ} {placement : Placement}
    (h : (place colour norm).Follows way placement) :
    ∃ weights, zones colour norm zoneCount = .ok weights ∧
      way = [zoneVisit weights placement.zone] ∧ placement.colour = colour ∧
      placement.norm = norm := by
  have hrest : ((Sampler.ofExcept (zones colour norm zoneCount)).bind fun weights : List ℚ =>
      (Sampler.sample (.text "zone") (numbered weights)).bind fun zone =>
        .pure (⟨colour, norm, zone⟩ : Placement)).Follows way placement := by
    cases hruled : isRuled norm with
    | true => rw [place, hruled] at h; exact h
    | false => rw [place, hruled] at h; exact Sampler.follows_note.mp h
  obtain ⟨weights, _, _, rfl, hzones, hdrawn⟩ := Sampler.follows_bind.mp hrest
  obtain ⟨rfl, hweights⟩ := Sampler.follows_ofExcept.mp hzones
  obtain ⟨zone, _, _, rfl, hzone, hlast⟩ := Sampler.follows_bind.mp hdrawn
  obtain rfl := Sampler.follows_sample.mp hzone
  obtain ⟨rfl, rfl⟩ := Sampler.follows_pure.mp hlast
  exact ⟨weights, hweights, rfl, rfl, rfl⟩

/-- A placement has chosen a colour, grown a norm, and drawn a zone by the weights of the norm. -/
theorem exists_of_follows_program {grammar : Grammar ℚ} {calls : Nat} {way : Way ℚ}
    {placement : Placement} (h : (program grammar calls).Follows way placement) :
    ∃ growth weights, grammar.Grown 1 grammar.root growth placement.norm ∧
      zones placement.colour placement.norm zoneCount = .ok weights ∧
      way = colourVisit placement.colour ::
        (growth.under (.text "norm") ++ [zoneVisit weights placement.zone]) := by
  rw [program_eq] at h
  obtain ⟨colour, _, _, rfl, htask, hrest⟩ := Sampler.follows_bind.mp h
  obtain rfl := follows_task htask
  obtain ⟨norm, _, _, rfl, hnorm, hplace⟩ := Sampler.follows_bind.mp hrest
  obtain ⟨growth, rfl, hgrowth⟩ := Sampler.follows_under.mp hnorm
  obtain ⟨weights, hweights, rfl, rfl, rfl⟩ := follows_place hplace
  exact ⟨growth, weights, .of_follows hgrowth, hweights, rfl⟩

theorem reaches_place {colour : String} {norm : Tree} {way : Way ℚ} {address : Path}
    {dist : Distribution ℚ} {next : Value → Sampler ℚ Placement}
    (h : (place colour norm).Reaches way (.choose address dist next)) :
    ∃ weights, zones colour norm zoneCount = .ok weights ∧ way = [] ∧ address = [.text "zone"] ∧
      dist = numbered weights := by
  have hrest : ((Sampler.ofExcept (zones colour norm zoneCount)).bind fun weights : List ℚ =>
      (Sampler.sample (.text "zone") (numbered weights)).bind fun zone =>
        .pure (⟨colour, norm, zone⟩ : Placement)).Reaches way (.choose address dist next) := by
    cases hruled : isRuled norm with
    | true => rw [place, hruled] at h; exact h
    | false =>
      rw [place, hruled] at h
      cases h with
      | note h => exact h
  rcases hrest.of_bind_choose with ⟨_, hzones⟩ | ⟨weights, _, _, rfl, hzones, hdrawn⟩
  · exact (Sampler.not_reaches_ofExcept hzones).elim
  obtain ⟨rfl, hweights⟩ := Sampler.follows_ofExcept.mp hzones
  rcases hdrawn.of_bind_choose with ⟨_, hzone⟩ | ⟨zone, _, _, rfl, -, hlast⟩
  · obtain ⟨rfl, rfl, rfl⟩ := Sampler.reaches_sample hzone
    exact ⟨weights, hweights, rfl, rfl, rfl⟩
  · cases hlast

/-- A placement that is not complete has come to its colour, to a choice of its norm, or to its
zone. -/
theorem exists_of_reaches_program {grammar : Grammar ℚ} {calls : Nat} {way : Way ℚ} {address : Path}
    {dist : Distribution ℚ} {next : Value → Sampler ℚ Placement}
    (h : (program grammar calls).Reaches way (.choose address dist next)) :
    (way = [] ∧
      ∀ colour, address = (colourVisit colour).address ∧ dist = (colourVisit colour).dist) ∨
    (∃ colour inner place, grammar.Begun 1 grammar.root inner place dist ∧
      way = colourVisit colour :: inner.under (.text "norm") ∧ address = .text "norm" :: place) ∨
    ∃ colour norm growth weights, grammar.Grown 1 grammar.root growth norm ∧
      zones colour norm zoneCount = .ok weights ∧
      way = colourVisit colour :: growth.under (.text "norm") ∧ address = [.text "zone"] ∧
      dist = numbered weights := by
  rw [program_eq] at h
  rcases h.of_bind_choose with ⟨_, htask⟩ | ⟨colour, _, _, rfl, htask, hrest⟩
  · obtain ⟨_, place, _, rfl, rfl, hchosen⟩ := htask.of_under_choose
    rcases hchosen.of_bind_choose with ⟨_, hcolour⟩ | ⟨chosen, _, _, rfl, -, hlast⟩
    · obtain ⟨rfl, rfl, rfl⟩ := Sampler.reaches_sample hcolour
      exact .inl ⟨rfl, fun _ => ⟨rfl, rfl⟩⟩
    · cases htext : chosen.text? with
      | none => rw [htext] at hlast; cases hlast
      | some => rw [htext] at hlast; cases hlast
  obtain rfl := follows_task htask
  rcases hrest.of_bind_choose with ⟨_, hnorm⟩ | ⟨norm, _, _, rfl, hnorm, hplace⟩
  · obtain ⟨inner, place, _, rfl, rfl, hbegun⟩ := hnorm.of_under_choose
    exact .inr (.inl ⟨colour, inner, place, .of_reaches hbegun, rfl, rfl⟩)
  obtain ⟨growth, rfl, hgrowth⟩ := Sampler.follows_under.mp hnorm
  obtain ⟨weights, hweights, rfl, rfl, rfl⟩ := reaches_place hplace
  exact .inr (.inr ⟨colour, norm, growth, weights, .of_follows hgrowth, hweights,
    by rw [List.append_nil]; rfl, rfl, rfl⟩)

/-! ### Observations -/

theorem density_colourVisit {colour : String} (h : colour ∈ colours) :
    (colourVisit colour).dist.density (.text colour) = 1 / 3 := by
  have hentry : ((Value.text colour, Scale.ratio 1 colours.length) : Value × ℚ) ∈
      colours.map fun colour => (Value.text colour, Scale.ratio 1 colours.length) :=
    List.mem_map_of_mem h
  exact Distribution.density_of_mem fair_colours hentry

/-- An observation gives a colour and a zone, and nothing of the norm. -/
theorem given_observation {colour zone : Value} {constraints : Choices}
    (h : observation colour zone = .ok constraints) :
    (Setting.forcing constraints).given [.text "task", .text "color"] = some colour ∧
      (Setting.forcing constraints).given [.text "zone"] = some zone ∧
      ∀ path, (Setting.forcing constraints).given (.text "norm" :: path) = none := by
  cases h
  exact ⟨rfl, rfl, fun _ => rfl⟩

/-- Under an observation, a norm is drawn, and the other choices are forced. -/
theorem ofOrigin_observation {colour zone : Value} {constraints : Choices}
    (h : observation colour zone = .ok constraints) (seen : String) (growth : Way ℚ) :
    Way.ofOrigin (.forcing constraints) .fresh
        (colourVisit seen :: growth.under (.text "norm")) = growth.under (.text "norm") ∧
    ∀ weights value,
      Way.ofOrigin (.forcing constraints) .fresh (colourVisit seen ::
        (growth.under (.text "norm") ++ [zoneVisit weights value])) =
          growth.under (.text "norm") ∧
      Way.ofOrigin (.forcing constraints) .forced (colourVisit seen ::
        (growth.under (.text "norm") ++ [zoneVisit weights value])) =
          [colourVisit seen, zoneVisit weights value] := by
  have hfresh : (Way.under (.text "norm") growth).filter (fun visit =>
      (Setting.forcing constraints).origin visit.address = .fresh) =
        growth.under (.text "norm") := by
    refine List.filter_eq_self.mpr fun visit hvisit => ?_
    obtain ⟨inner, -, rfl⟩ := List.mem_map.mp hvisit
    exact decide_eq_true (Setting.origin_fresh_iff.mpr ((given_observation h).2.2 inner.address))
  have hforced : (Way.under (.text "norm") growth).filter (fun visit =>
      (Setting.forcing constraints).origin visit.address = .forced) = [] := by
    refine List.filter_eq_nil_iff.mpr fun visit hvisit => ?_
    obtain ⟨inner, -, rfl⟩ := List.mem_map.mp hvisit
    rw [Visit.address_under, Setting.origin_fresh_iff.mpr ((given_observation h).2.2 inner.address)]
    exact Bool.false_ne_true
  have hcolour : (Setting.forcing constraints).origin (colourVisit seen).address = .forced := by
    cases h
    rfl
  have hzone (weights : List ℚ) (value : Value) :
      (Setting.forcing constraints).origin (zoneVisit weights value).address = .forced := by
    cases h
    rfl
  refine ⟨?_, fun weights value => ⟨?_, ?_⟩⟩
  · simp [Way.ofOrigin, hfresh, hcolour]
  · simp [Way.ofOrigin, hfresh, hcolour, hzone]
  · simp [Way.ofOrigin, hforced, hcolour, hzone]

end Deontic.Placement
