import Deontic.Proofs.Importance
import Deontic.Proofs.Revisions

/-! Runs under constraints.  A way obeys constraints if it takes their values, which are possible,
and draws all others (`Way.Obeys`).  What comes of it is a result, or nothing because the value of a
constraint is impossible, or a result that leaves a constraint out (`Program.ComesTo`).  A program
that can be relied on comes to one of these, unless the draws run out (`Reliable.exists_comesTo`).
Generation gives the result with the probability of its constrained choices, gives no trace, or
fails (`Reliable.generates`, `Reliable.drops`, `Reliable.strays`). -/

namespace Deontic

variable {P W α β : Type}

/-- Under constraints alone, the values at hand are theirs. -/
theorem Setting.given_forcing (constraints : Choices) (address : Path) :
    (forcing constraints).given address = constraints.flatten.get? address := Option.or_none

/-- Under constraints alone, the choices that they do not force are fresh. -/
theorem Setting.origin_forcing (constraints : Choices) (address : Path) :
    (forcing constraints).origin address =
      if (constraints.flatten.get? address).isSome then .forced else .fresh := rfl

theorem Way.length_ofOrigin (constraints : Choices) (way : Way P) :
    (way.ofOrigin (.forcing constraints) .forced).length +
      (way.ofOrigin (.forcing constraints) .fresh).length = way.length := by
  induction way with
  | nil => rfl
  | cons visit rest ih =>
    rw [ofOrigin_cons, ofOrigin_cons, Setting.origin_forcing, List.length_cons, ← ih]
    split
    · simp only [reduceCtorEq, if_true, if_false, List.length_cons]
      omega
    · simp only [reduceCtorEq, if_true, if_false, List.length_cons]
      omega

/-- Different addresses of keys, none of which stands in the way of another. -/
structure Path.Separate (addresses : List Path) : Prop where
  distinct : addresses.Pairwise fun a b => (a == b) = false
  recordable : Choices.Recordable addresses

theorem Path.Orderly.separate {length : Nat} {addresses : List Path}
    (h : Path.Orderly length addresses) : Path.Separate addresses := ⟨h.distinct, h.recordable⟩

namespace Path.Separate

variable {addresses others : List Path}

theorem singleton {address : Path} (hcheck : address.check = .ok ()) (hne : address ≠ []) :
    Path.Separate [address] :=
  ⟨List.pairwise_singleton _ _, List.forall_mem_singleton.mpr ⟨hcheck, hne⟩,
    List.pairwise_singleton _ _⟩

theorem left (h : Path.Separate (addresses ++ others)) : Path.Separate addresses :=
  ⟨(List.pairwise_append.mp h.distinct).1, h.recordable.left⟩

theorem under (h : Path.Separate addresses) (label : String) :
    Path.Separate (addresses.map (.text label :: ·)) := by
  refine ⟨Way.pairwise_under h.distinct _, List.forall_mem_map.mpr fun address haddress => ?_,
    List.pairwise_map.mpr (h.recordable.compatible.imp fun {a b} hab => ?_)⟩
  · exact ⟨(Path.check_cons _ _).mpr ⟨rfl, (h.recordable.keyed address haddress).1⟩,
      List.cons_ne_nil _ _⟩
  · rw [Path.compatible, hab, Bool.or_true]

/-- Addresses that begin with different keys do not meet. -/
theorem append (h : Path.Separate addresses) (k : Path.Separate others)
    (hlead : ∀ a ∈ addresses, ∀ b ∈ others, ∃ key rest key' rest', a = key :: rest ∧
      b = key' :: rest' ∧ (key == key') = false) : Path.Separate (addresses ++ others) := by
  refine ⟨List.pairwise_append.mpr ⟨h.distinct, k.distinct, fun a ha b hb => ?_⟩,
    List.forall_mem_append.mpr ⟨h.recordable.keyed, k.recordable.keyed⟩,
    List.pairwise_append.mpr
      ⟨h.recordable.compatible, k.recordable.compatible, fun a ha b hb => ?_⟩⟩
  · obtain ⟨key, rest, key', rest', rfl, rfl, hne⟩ := hlead a ha b hb
    rw [List.cons_beq_cons, hne, Bool.false_and]
  · obtain ⟨key, rest, key', rest', rfl, rfl, hne⟩ := hlead a ha b hb
    rw [Path.compatible, hne]
    rfl

end Path.Separate

/-- A way that is not empty has come to its last choice. -/
theorem Sampler.Reaches.exists_last {s t : Sampler P α} {way : Way P} (h : Reaches s way t) :
    way = [] ∨ ∃ earlier visit next, way = earlier ++ [visit] ∧
      Reaches s earlier (.choose visit.address visit.dist next) := by
  induction h with
  | refl => exact .inl rfl
  | note _ ih =>
    refine ih.imp_right ?_
    rintro ⟨earlier, visit, next, rfl, hreaches⟩
    exact ⟨earlier, visit, next, rfl, .note hreaches⟩
  | @choose address dist value next way t _ ih =>
    right
    rcases ih with rfl | ⟨earlier, visit, next', rfl, hreaches⟩
    · exact ⟨[], ⟨address, dist, value⟩, next, rfl, .refl _⟩
    · exact ⟨_ :: earlier, visit, next', rfl, .choose hreaches⟩

/-! ### Ways that obey constraints -/

/-- The values of constraints are taken and possible, and the others are drawn one after the other
from `draws`, of which `rest` is left. -/
structure Way.Obeys (constraints : Choices) (way : Way ℚ) (draws rest : List ℚ) : Prop where
  given : ∀ visit ∈ way, ∀ value, constraints.flatten.get? visit.address = some value →
    visit.value = value ∧ 0 < visit.dist.density visit.value
  drawn : (way.ofOrigin (.forcing constraints) .fresh).DrawnFrom draws rest

theorem Run.AdmitsAll.obeys {constraints : Choices} {run : Run ℚ LogWeight} {way : Way ℚ}
    (h : run.AdmitsAll (.forcing constraints) way) :
    way.Obeys constraints run.draws (run.passes (.forcing constraints) way).draws := by
  refine ⟨fun visit hvisit value hvalue => ?_, Run.drawnFrom_passes h⟩
  rw [← Setting.given_forcing] at hvalue
  obtain ⟨hsame, hpossible⟩ := h.given visit hvisit value hvalue
  exact ⟨hsame, Scale.logOf_ne_bot.mp (Scale.isImpossible_rat.mp hpossible)⟩

namespace Way.Obeys

variable {constraints : Choices} {way : Way ℚ} {draws rest : List ℚ}
  (h : way.Obeys constraints draws rest)
include h

/-- A run on the draws admits the way. -/
theorem admits (hplaces : Path.Separate way.addresses) (records : List Record) :
    (Run.start draws records : Run ℚ LogWeight).AdmitsAll (.forcing constraints) way := by
  refine Run.admitsAll_of_drawn (fun visit hvisit value hvalue => ?_) (fun _ _ _ => rfl) h.drawn
    hplaces.distinct (fun _ _ => rfl) hplaces.recordable.exists_recorded
  rw [Setting.given_forcing] at hvalue
  obtain ⟨hsame, hpos⟩ := h.given visit hvisit value hvalue
  exact ⟨hsame, Scale.isImpossible_rat.mpr (Scale.logOf_ne_bot.mpr hpos)⟩

/-- What is left of the draws is what a run on them leaves. -/
theorem draws_passes (hplaces : Path.Separate way.addresses) (records : List Record) :
    ((Run.start draws records : Run ℚ LogWeight).passes (.forcing constraints) way).draws = rest :=
  (Run.drawnFrom_passes (h.admits hplaces records)).unique h.drawn

/-- A choice is drawn, or there is a constraint for it. -/
theorem length_lt_calls (hdistinct : way.Distinct) :
    way.length < Program.calls (.forcing constraints) draws := by
  have hforced : (way.ofOrigin (.forcing constraints) .forced).addresses.length <
      Program.calls (.forcing constraints) ([] : List ℚ) := by
    have hpairs := List.pairwise_map.mp hdistinct
    refine Program.length_lt_calls (List.pairwise_map.mpr (hpairs.filter _))
      (fun address haddress => ?_) _
    obtain ⟨visit, hvisit, rfl⟩ := List.mem_map.mp haddress
    have horigin := of_decide_eq_true (List.mem_filter.mp hvisit).2
    rw [Setting.given_forcing]
    exact Setting.origin_forced_iff.mp horigin
  have hdrawn := h.drawn.length
  have hall := Way.length_ofOrigin constraints way
  rw [Way.addresses, List.length_map] at hforced
  rw [Program.calls] at hforced ⊢
  rw [List.length_nil] at hforced
  omega

theorem probability_pos : 0 < (way.ofOrigin (.forcing constraints) .forced).probability := by
  refine Way.probability_pos fun visit hvisit => ?_
  obtain ⟨hmem, horigin⟩ := List.mem_filter.mp hvisit
  obtain ⟨value, hvalue⟩ := Option.isSome_iff_exists.mp
    (Setting.origin_forced_iff.mp (of_decide_eq_true horigin))
  exact Scale.isImpossible_rat.mpr (Scale.logOf_ne_bot.mpr (h.given visit hmem value hvalue).2)

/-- The log-weight of the constrained choices stands for their probability. -/
theorem mass_score : ((way.ofOrigin (.forcing constraints) .forced).score : LogWeight).mass =
    (way.ofOrigin (.forcing constraints) .forced).probability := by
  refine Way.mass_score fun visit hvisit => ?_
  obtain ⟨hmem, horigin⟩ := List.mem_filter.mp hvisit
  obtain ⟨value, hvalue⟩ := Option.isSome_iff_exists.mp
    (Setting.origin_forced_iff.mp (of_decide_eq_true horigin))
  exact (h.given visit hmem value hvalue).2.le

end Way.Obeys

/-! ### What comes of a program -/

/-- A result with the probability of its constrained choices, nothing, or a constraint that was left
out. -/
inductive Outcome (α : Type) where
  | kept (result : α) (probability : ℚ)
  | dropped
  | strayed (address : Path)

namespace Program

/-- What a program comes to under constraints, on draws of which `rest` is left: a result that has
visited all constraints, a choice for which the value of a constraint is impossible, or a result
without some constraint, the first of which is named. -/
inductive ComesTo (program : Program ℚ α) (constraints : Choices) (draws rest : List ℚ) :
    Outcome α → Prop
  | kept {calls : Nat} {way : Way ℚ} {result : α} (hfollows : (program calls).Follows way result)
      (hobeys : way.Obeys constraints draws rest)
      (hvisited : ∀ address ∈ constraints.flatten.keys, way.addresses.contains address = true) :
      ComesTo program constraints draws rest
        (.kept result (way.ofOrigin (.forcing constraints) .forced).probability)
  | dropped {calls : Nat} {way : Way ℚ} {address : Path} {dist : Distribution ℚ}
      {next : Value → Sampler ℚ α} {value : Value}
      (hreaches : (program calls).Reaches way (.choose address dist next))
      (hobeys : way.Obeys constraints draws rest)
      (hvalue : constraints.flatten.get? address = some value)
      (himpossible : ¬0 < dist.density value) :
      ComesTo program constraints draws rest .dropped
  | strayed {calls : Nat} {way : Way ℚ} {result : α} {address : Path}
      (hfollows : (program calls).Follows way result) (hobeys : way.Obeys constraints draws rest)
      (hfirst : (constraints.flatten.keys.find? fun address => !way.addresses.contains address) =
        some address) :
      ComesTo program constraints draws rest (.strayed address)

theorem ComesTo.suffix {program : Program ℚ α} {constraints : Choices} {draws rest : List ℚ}
    {outcome : Outcome α} (h : program.ComesTo constraints draws rest outcome) :
    rest <:+ draws := by
  cases h with
  | kept _ hobeys | dropped _ hobeys | strayed _ hobeys => exact hobeys.drawn.suffix

/-- A program whose choices at the end of a way are the same for all numbers of nested calls that
exceed the length of the way. -/
def Steadfast (program : Program P α) : Prop :=
  ∀ calls calls' way address dist next,
    (program calls).Reaches way (.choose address dist next) → way.length < calls' →
      ∃ next', (program calls').Reaches way (.choose address dist next')

namespace Steadfast

theorem const (s : Sampler P α) : Steadfast fun _ => s := fun _ _ _ _ _ next h _ => ⟨next, h⟩

theorem under {program : Program P α} (h : program.Steadfast) (key : Value) :
    Steadfast fun calls => (program calls).under key := by
  intro calls calls' way address dist next hway hlength
  obtain ⟨inner, place, next', rfl, rfl, hinner⟩ := Sampler.Reaches.of_under_choose hway
  rw [Way.under, List.length_map] at hlength
  obtain ⟨last, hlast⟩ := h _ _ _ _ _ _ hinner hlength
  exact ⟨_, hlast.under key⟩

theorem bind {first : Program P α} {second : α → Program P β} (h : first.Steadfast)
    (hsteady : first.Steady) (k : ∀ a, (second a).Steadfast) :
    Steadfast fun calls => (first calls).bind fun a => second a calls := by
  intro calls calls' way address dist next hway hlength
  rcases Sampler.Reaches.of_bind_choose hway with
    ⟨next', hfirst⟩ | ⟨a, way, later, rfl, hfirst, hsecond⟩
  · obtain ⟨last, hlast⟩ := h _ _ _ _ _ _ hfirst hlength
    exact ⟨_, hlast.bind _⟩
  · rw [List.length_append] at hlength
    obtain ⟨last, hlast⟩ := k a _ calls' _ _ _ _ hsecond (by omega)
    exact ⟨last, (Sampler.Reaches.bind (hsteady _ calls' _ _ hfirst (by omega)) _).trans hlast⟩

end Steadfast

/-- A program that can be run on any draws: its ways do not depend on the number of nested calls, it
does not fail before it has made as many choices as it may nest calls, and its addresses do not
stand in each other's way. -/
structure Reliable (program : Program ℚ α) : Prop where
  steady : program.Steady
  steadfast : program.Steadfast
  lasts : ∀ calls, (program calls).Lasts calls
  separate : ∀ calls way address dist next,
    (program calls).Reaches way (.choose address dist next) →
      Path.Separate (way.addresses ++ [address])

namespace Reliable

variable {program : Program ℚ α} {constraints : Choices} {rest : List ℚ}

theorem separate_of_reaches (h : program.Reliable) {calls : Nat} {way : Way ℚ} {t : Sampler ℚ α}
    (hreaches : (program calls).Reaches way t) : Path.Separate way.addresses := by
  rcases hreaches.exists_last with rfl | ⟨earlier, visit, next, rfl, hlast⟩
  · exact ⟨.nil, nofun, .nil⟩
  · rw [Way.addresses_append]
    exact h.separate _ _ _ _ _ hlast

/-- A reliable program comes to something under constraints, unless the draws run out. -/
theorem exists_comesTo (h : program.Reliable) (constraints : Choices) (supply : Supply ℚ)
    (hdraws : UnitDraws supply.draws) :
    (∃ records, (program.execute (.forcing constraints) :
      Act ℚ (Except Path α × Run ℚ LogWeight)).run.run supply =
        (.error (.supply .exhausted), ⟨[], records⟩)) ∨
    ∃ outcome rest, program.ComesTo constraints supply.draws rest outcome := by
  cases hrun : (program (calls (.forcing constraints) supply.draws)).run (.forcing constraints)
      (Run.start supply.draws supply.records : Run ℚ LogWeight) with
  | mk outcome run =>
  rcases outcome with (address | fault) | result
  · obtain ⟨way, dist, next, value, hreaches, hadmits, -, hvalue, himpossible⟩ :=
      Sampler.exists_reaches_of_impossible hrun
    rw [Setting.given_forcing] at hvalue
    exact .inr ⟨_, _, .dropped hreaches hadmits.obeys hvalue
      (Distribution.isImpossible_iff.mp himpossible)⟩
  · have hlong (way : Way ℚ)
        (hadmits : (Run.start supply.draws supply.records : Run ℚ LogWeight).AdmitsAll
          (.forcing constraints) way) :
        (program (calls (.forcing constraints) supply.draws)).Lasts (way.length + 1) :=
      (h.lasts _).mono (hadmits.obeys.length_lt_calls hadmits.distinct.1)
    rcases Sampler.Lasts.stops (fun _ _ _ _ hreaches => (h.separate _ _ _ _ _ hreaches).recordable)
        hdraws hlong hrun with
      ⟨rfl, hnone⟩ | ⟨hstrict, -⟩ | ⟨way, address, dist, next, hreaches, hvisited, -⟩ |
        ⟨way, result, address, hfollows, hadmits, hfirst, -⟩
    · refine .inl ⟨run.records, ?_⟩
      rw [← hnone]
      exact execute_eq_fault hrun
    · cases hstrict
    · have hnew := Path.contains_eq_false (h.separate _ _ _ _ _ hreaches).distinct
      exact nomatch hvisited.symm.trans hnew
    · exact .inr ⟨_, _, .strayed hfollows hadmits.obeys hfirst⟩
  · obtain ⟨way, _, hcompletes, -, -⟩ := exists_way_of_yields
      (yields_execute_run.mpr ⟨hrun, rfl⟩ : (program.execute (.forcing constraints)).Yields supply
        ((.ok result : Except Path α), run) _)
    exact .inr ⟨_, _, .kept hcompletes.follows hcompletes.admits.obeys hcompletes.covers⟩

/-- What is kept is generated, with its probability. -/
theorem generates (h : program.Reliable) (supply : Supply ℚ) {result : α} {probability : ℚ}
    (hcomes : program.ComesTo constraints supply.draws rest (.kept result probability)) :
    ∃ (trace : Trace ℚ LogWeight α) (weight : LogWeight) (records : List Record),
      (program.generate constraints).Yields supply (some trace, weight) ⟨rest, records⟩ ∧
        trace.result = result ∧ (weight.mass : ℚ) = probability ∧
        Scale.isImpossible ℚ weight = false := by
  cases hcomes with
  | @kept calls way result hfollows hobeys hvisited =>
  have hplaces := h.separate_of_reaches hfollows
  have hcompletes : Completes (W := LogWeight) program (.forcing constraints) supply.draws way
      result :=
    ⟨h.steady _ _ _ _ hfollows (hobeys.length_lt_calls hplaces.distinct).le,
      hobeys.admits hplaces [], hvisited⟩
  obtain ⟨records, hyields⟩ := hcompletes.yields
  have hleft : (ended (W := LogWeight) (.forcing constraints) supply.draws way).draws = rest :=
    hobeys.draws_passes hplaces []
  have hforced : (ended (W := LogWeight) (.forcing constraints) supply.draws way).forced =
      (way.ofOrigin (.forcing constraints) .forced).score := Run.forced_passes _ _
  rw [hleft] at hyields
  refine ⟨_, _, records, yields_generate_some.mpr ⟨_, _, hyields, rfl, rfl⟩, rfl, ?_, ?_⟩
  · rw [hforced]
    exact hobeys.mass_score
  · rw [hforced, Scale.isImpossible_rat, LogWeight.ne_bot_iff]
    intro hzero
    have hmass := hobeys.mass_score
    rw [hzero, NNRat.cast_zero] at hmass
    exact hobeys.probability_pos.ne hmass

/-- Where nothing comes of a program, no trace is generated. -/
theorem drops (h : program.Reliable) (supply : Supply ℚ)
    (hcomes : program.ComesTo constraints supply.draws rest .dropped) :
    ∃ (weight : LogWeight) (records : List Record), (program.generate constraints).Yields supply
      ((none, weight) : Option (Trace ℚ LogWeight α) × LogWeight) ⟨rest, records⟩ := by
  cases hcomes with
  | @dropped calls way address dist next value hreaches hobeys hvalue himpossible =>
  have hplaces := h.separate _ _ _ _ _ hreaches
  have hkeyed := (hplaces.recordable.keyed address (List.mem_append_right _ List.mem_cons_self)).1
  obtain ⟨next', hreaches⟩ :=
    h.steadfast _ _ _ _ _ _ hreaches (hobeys.length_lt_calls hplaces.left.distinct)
  rw [← Setting.given_forcing] at hvalue
  obtain ⟨run, hyields⟩ := yields_of_admitted hreaches (hobeys.admits hplaces.left supply.records)
    hvalue (Distribution.isImpossible_iff.mpr himpossible) hplaces.distinct hkeyed
  rw [hobeys.draws_passes hplaces.left] at hyields
  exact ⟨_, run.records, Act.yields_bind.mpr ⟨_, _, hyields, Act.yields_pure.mpr ⟨rfl, rfl⟩⟩⟩

/-- A result that leaves a constraint out is a failure. -/
theorem strays (h : program.Reliable) (supply : Supply ℚ) {address : Path}
    (hcomes : program.ComesTo constraints supply.draws rest (.strayed address)) :
    (program.generate constraints : Act ℚ (Option (Trace ℚ LogWeight α) × LogWeight)).Fails supply
      (.execution (.unvisited address)) := by
  cases hcomes with
  | @strayed calls way result address hfollows hobeys hfirst =>
  have hplaces := h.separate_of_reaches hfollows
  exact (fails_execute_of_first
    (h.steady _ _ _ _ hfollows (hobeys.length_lt_calls hplaces.distinct).le)
    (hobeys.admits hplaces []) hfirst).bind _

end Reliable

end Program

end Deontic
