import Deontic.Proofs.Proposals
import Deontic.Proofs.Support
import Deontic.Proofs.Criterion

/-! When growth comes to one address twice.  The choices for different positions never share an
address.  Those for one position do if the word for a leaf is written like the key under which words
are chosen.  A grammar that passes its check may have such a word; growth under it is free of
collisions exactly if no rule offers it as a leaf (`Grammar.collisionless_iff`). -/

namespace Deontic

variable {P W α β : Type}

/-! ### The addresses that a run has visited -/

section Visited

variable [Scale P W] {setting : Setting} {places : Path → Prop}

namespace Run

/-- A run has visited different addresses, all of them at the given places. -/
structure Tracks (places : Path → Prop) (run : Run P W) : Prop where
  distinct : run.visited.Pairwise fun a b => (a == b) = false
  within : ∀ address ∈ run.visited, places address

theorem visited_keep (run : Run P W) (address : Path) (value : Value) (density : W) :
    (run.keep address value density).2.visited = run.visited := by
  unfold keep
  cases run.choices.set address value <;> rfl

theorem visited_settle (setting : Setting) (dist : Distribution P) (run : Run P W)
    (address : Path) :
    (run.settle setting dist address).2.visited = run.visited := by
  simp only [settle, force, reuse, draw, drop_eq]
  split
  · split
    · rfl
    · rw [visited_keep]
  split
  · split
    · rfl
    · rw [visited_keep]
  split
  · rfl
  split
  · rfl
  · rw [visited_keep]

theorem Tracks.visit {run : Run P W} (h : run.Tracks places) {address : Path}
    (haddress : places address) (dist : Distribution P) :
    (run.visit setting dist address).2.Tracks places := by
  rw [Run.visit]
  split
  · exact h
  split
  · exact h
  next hnew =>
  have hdiffer : ∀ old ∈ run.visited, (address == old) = false := by
    intro old hold
    rw [Bool.eq_false_iff]
    exact fun heq => hnew (List.contains_iff_exists_mem_beq.mpr ⟨old, hold, heq⟩)
  constructor
  · rw [visited_settle]
    exact List.pairwise_cons.mpr ⟨hdiffer, h.distinct⟩
  · rw [visited_settle]
    exact List.forall_mem_cons.mpr ⟨haddress, h.within⟩

end Run

/-- A run stops where it has been before. -/
theorem Run.visit_of_visited {run : Run P W} (dist : Distribution P) {address : Path}
    (hkeyed : address.check = .ok ()) (hvisited : run.visited.contains address = true) :
    run.visit setting dist address =
      (.error (.fault (.execution (.repeated address))), run) := by
  rw [Run.visit, hkeyed]
  dsimp only
  rw [if_pos hvisited]

/-- A run visits only addresses that its program comes to, and none of them twice. -/
theorem Sampler.tracks_run (s : Sampler P α) {run : Run P W} (h : run.Tracks places)
    (hplaces : ∀ way address dist next, Reaches s way (choose address dist next) → places address) :
    (s.run setting run).2.Tracks places := by
  induction s generalizing run with
  | pure a =>
    rw [Sampler.run]
    split
    · next hfinish =>
      obtain ⟨-, rfl⟩ := Run.finish_eq_ok.mp hfinish
      exact ⟨h.distinct, h.within⟩
    · exact h
  | fail => exact h
  | note record rest ih =>
    exact ih ⟨h.distinct, h.within⟩ fun way address dist next hreaches =>
      hplaces way address dist next (.note hreaches)
  | choose address dist next ih =>
    have hvisit : (run.visit setting dist address).2.Tracks places :=
      h.visit (hplaces [] address dist next (.refl _)) dist
    rw [Sampler.run]
    split
    · next value run₁ heq =>
      rw [heq] at hvisit
      exact ih value hvisit fun way place dist' next' hreaches =>
        hplaces _ place dist' next' (.choose hreaches)
    · next heq =>
      rw [heq] at hvisit
      exact hvisit

end Visited

/-! ### Failures of the program itself -/

namespace Sampler

/-- The program does not fail on its own as a run does at an address that it visited before. -/
def Unrepeating : Sampler P α → Prop
  | pure _ => True
  | fail fault => ∀ address, fault ≠ .execution (.repeated address)
  | note _ rest => rest.Unrepeating
  | choose _ _ next => ∀ value, (next value).Unrepeating

theorem Unrepeating.bind {s : Sampler P α} (h : s.Unrepeating) {f : α → Sampler P β}
    (hf : ∀ a, (f a).Unrepeating) : (s.bind f).Unrepeating := by
  induction s with
  | pure a => exact hf a
  | fail => exact h
  | note record rest ih => exact ih h
  | choose address dist next ih => exact fun value => ih value (h value)

theorem unrepeating_sample (key : Value) (dist : Distribution P) :
    (sample key dist).Unrepeating :=
  fun _ => trivial

theorem Unrepeating.of_reaches {s : Sampler P α} (h : s.Unrepeating) {way : Way P} {fault : Fault}
    (hreaches : Reaches s way (fail fault)) (address : Path) :
    fault ≠ .execution (.repeated address) := by
  generalize ht : (fail fault : Sampler P α) = t at hreaches
  induction hreaches with
  | refl =>
    subst ht
    exact h address
  | note _ ih => exact ih h ht
  | choose _ ih => exact ih (h _) ht

theorem Fair.of_reaches {s t : Sampler ℚ α} (h : s.Fair) {way : Way ℚ}
    (hreaches : Reaches s way t) :
    ∀ visit ∈ way, visit.dist.Fair := by
  induction hreaches with
  | refl => exact nofun
  | note _ ih => exact ih h
  | choose _ ih => exact List.forall_mem_cons.mpr ⟨h.1, ih (h.2 _)⟩

end Sampler

namespace Grammar

theorem unrepeating_entry {ν : Type} (table : Table String ν) (name : String) :
    (entry table name : Sampler P ν).Unrepeating := by
  rw [entry]
  cases table.get? name with
  | none => exact fun _ h => by cases h
  | some => trivial

theorem unrepeating_built (result : Except WordFault Tree) :
    (Sampler.ofExcept (result.mapError .vocabulary) : Sampler P Tree).Unrepeating := by
  cases result with
  | error => exact fun _ h => by cases h
  | ok => trivial

theorem unrepeating_chooseWord (grammar : Grammar P) (index : Int) (rule : String) :
    (chooseWord grammar index rule).Unrepeating := by
  unfold chooseWord
  refine (unrepeating_entry _ _).bind fun weights => (Sampler.unrepeating_sample _ _).bind
    fun chosen => ?_
  cases chosen.text? with
  | none => exact fun _ h => by cases h
  | some => trivial

theorem unrepeating_growLeaf (grammar : Grammar P) (index : Int) (word : String) :
    (growLeaf grammar index word).Unrepeating := by
  unfold growLeaf
  cases grammar.textWeights.get? word with
  | none => exact fun _ h => by cases h
  | some weights =>
    refine (Sampler.unrepeating_sample _ _).bind fun chosen => ?_
    cases chosen.text? with
    | none => exact fun _ h => by cases h
    | some text => exact unrepeating_built _

theorem unrepeating_grow (grammar : Grammar P) (calls : Nat) (index : Int) (rule : String) :
    (grammar.grow calls index rule).Unrepeating := by
  induction calls generalizing index rule with
  | zero => exact fun _ h => by cases h
  | succ calls ih =>
    rw [grow_succ]
    refine (unrepeating_chooseWord _ _ _).bind fun word =>
      (unrepeating_entry _ _).bind fun offered =>
      (unrepeating_entry _ _).bind fun parts => ?_
    rcases parts with _ | ⟨first, _ | ⟨second, _ | ⟨_, _⟩⟩⟩
    · exact unrepeating_growLeaf grammar index word
    · exact (ih _ _).bind fun left => unrepeating_built _
    · exact (ih _ _).bind fun left => (ih _ _).bind fun right => unrepeating_built _
    · exact fun _ h => by cases h

/-! ### Collisions -/

/-- Under every rule, at every position and in every setting, a run of growth on draws from the unit
interval visits different addresses, all of them of positions below its own, and comes to none a
second time. -/
def Collisionless (grammar : Grammar ℚ) : Prop :=
  ∀ rule index setting draws records (outcome : Except Halt Tree) (run : Run ℚ LogWeight),
    grammar.rules.contains rule = true → 1 ≤ index → UnitDraws draws →
    (grammar.growth index rule (Program.calls setting draws)).run setting (.start draws records) =
      (outcome, run) →
    (run.visited.Pairwise fun a b => (a == b) = false) ∧ Within index run.visited ∧
      ∀ address, outcome ≠ .error (.fault (.execution (.repeated address)))

variable {grammar : Grammar ℚ}

/-- What a run on draws chooses has positive weight, so it grows no leaf from a word that no rule
offers. -/
theorem clear_of_admitsAll (hweighed : grammar.Weighed)
    (hoffers : ∀ rule, ¬ grammar.Offers rule "node_type" []) {calls : Nat} {index : Int}
    {rule : String} {way : Way ℚ} {t : Sampler ℚ Tree}
    (hreaches : (grammar.growth index rule calls).Reaches way t) {setting : Setting}
    {run : Run ℚ LogWeight} (hadmits : run.AdmitsAll setting way) (hdraws : UnitDraws run.draws) :
    grammar.Clear way := by
  intro part j weights hparts hweights hvisit
  obtain ⟨hpossible, -⟩ :=
    hadmits.possible ((fair_grow hweighed calls index rule).of_reaches hreaches) hdraws
  obtain ⟨p, hp, hpos⟩ := possible_wordVisit.mp (Scale.isImpossible_rat.mpr (hpossible _ hvisit))
  exact hoffers part ⟨hparts, weights, p, hweights, hp, hpos⟩

/-- Growth that never grows a leaf from the word for the key is free of collisions. -/
theorem collisionless_of_not_offers (hweighed : grammar.Weighed)
    (hoffers : ∀ rule, ¬ grammar.Offers rule "node_type" []) : grammar.Collisionless := by
  intro rule index setting draws records outcome run _ hindex hdraws hrun
  have htracks : ((grammar.growth index rule (Program.calls setting draws)).run setting
      (.start draws records : Run ℚ LogWeight)).2.Tracks fun address =>
        ∃ j name, Tree.Below index j ∧ address = [key j name] :=
    Sampler.tracks_run _ ⟨.nil, nofun⟩ fun way address dist next hreaches =>
      (Begun.of_reaches hreaches).within address (List.mem_append_right _ List.mem_cons_self)
  rw [hrun] at htracks
  refine ⟨htracks.distinct, htracks.within, ?_⟩
  rintro repeated rfl
  obtain ⟨way, t, records', hreaches, hadmits, hend⟩ := Sampler.exists_reaches_of_fault hrun
  rcases hend with rfl | ⟨a, rfl, hfinish⟩ | ⟨address, dist, next, rfl, hvisit⟩
  · exact (unrepeating_grow _ _ _ _).of_reaches hreaches repeated rfl
  · obtain ⟨_, -, hfault⟩ := Run.finish_eq_fault hfinish
    cases hfault
  · have hbegun := Begun.of_reaches hreaches
    have hdistinct := hbegun.distinct_of_clear
      (clear_of_admitsAll hweighed hoffers hreaches hadmits hdraws) hindex
    have horderly : Path.Orderly 0 (way.addresses ++ [address]) := ⟨hdistinct, hbegun.within.keyed⟩
    have hkeyed := (horderly.keyed address (List.mem_append_right _ List.mem_cons_self)).1
    rcases Run.visit_eq_fault hvisit hkeyed (Run.exists_set_passes horderly.recordable hadmits) with
      ⟨hvisited, -⟩ | ⟨-, hfault⟩ | ⟨_, -, hfault, -⟩
    · rw [Program.contains_visited, Path.contains_eq_false hdistinct] at hvisited
      cases hvisited
    · cases hfault
    · cases hfault

/-- If a rule offers the word for the key as a leaf, one draw leads growth to an address that it has
visited. -/
theorem exists_repeated (hvalid : grammar.Valid) {rule : String}
    (hoffers : grammar.Offers rule "node_type" []) (index : Int) :
    ∃ (draws : List ℚ) (run : Run ℚ LogWeight), UnitDraws draws ∧
      (grammar.growth index rule (Program.calls .free draws)).run .free (.start draws []) =
        (.error (.fault (.execution (.repeated [key index "node_type"]))), run) := by
  obtain ⟨hparts, weights, p, hweights, hp, hpos⟩ := hoffers
  obtain ⟨offered, hoffered, hword⟩ := Option.bind_eq_some_iff.mp hparts
  obtain ⟨weights', hsame, -, hproper⟩ := hvalid.weighed hoffered
  obtain rfl := Option.some.inj (hweights.symm.trans hsame)
  obtain ⟨texts, htexts⟩ : ∃ texts, grammar.textWeights.get? "node_type" = some texts := by
    cases hvalid.usable hoffered hword with
    | leaf _ _ htexts => exact ⟨_, htexts⟩
    | branch _ _ hnonempty => exact (hnonempty rfl).elim
  let visit := wordVisit index weights "node_type"
  have hpossible : Scale.isImpossible ℚ (visit.density : LogWeight) = false :=
    possible_wordVisit.mpr ⟨p, hp, hpos⟩
  have hdrawable : visit.Drawable :=
    (Distribution.drawable_ofTexts hproper.proper).mpr hpossible
  have horderly : Path.Orderly 0 (Way.addresses [visit]) :=
    ⟨List.pairwise_singleton _ _, List.forall_mem_singleton.mpr ⟨rfl, rfl⟩⟩
  have hset : ∃ choices, (Run.start [] [] : Run ℚ LogWeight).choices.setAll
      (Way.entries [visit]) = .ok choices := horderly.exists_recorded
  obtain ⟨draws, hdraws, hlength, hadmits⟩ := Run.exists_admitsAll
    (List.forall_mem_singleton.mpr hdrawable) horderly.distinct (fun _ _ => rfl) hset []
  rw [List.append_nil] at hadmits
  have hcalls : [visit].length < Program.calls .free draws := by
    rw [Program.calls, hlength]
    exact Nat.lt_succ_of_le (Nat.le_add_left _ _)
  have hbegun : Begun grammar index rule [visit] [key index "node_type"] (.ofTexts texts) :=
    .text hweights hparts htexts
  obtain ⟨next, hreaches⟩ := hbegun.reaches hcalls
  obtain ⟨records, hrun⟩ := Sampler.run_of_reaches hreaches
    (show (Run.start draws [] : Run ℚ LogWeight).AdmitsAll .free [visit] from hadmits)
  have hvisited : ({ (Run.start draws [] : Run ℚ LogWeight).passes .free [visit] with
      records }).visited.contains [key index "node_type"] = true := by
    rw [Program.contains_visited]
    exact Bool.or_eq_true_iff.mpr (.inl BEq.rfl)
  rw [Sampler.run, Run.visit_of_visited _ rfl hvisited] at hrun
  exact ⟨draws, _, hdraws, hrun⟩

/-- **Growth is free of collisions exactly if no leaf is grown from the word "node_type".**  In a
grammar that passes its check, whatever its vocabulary, the runs of growth under all rules and at
all positions visit different addresses of positions below their own, and none is refused for an
address that was visited twice, unless a rule offers, with a positive weight, a word for leaves that
is written like the key under which words are chosen. -/
theorem collisionless_iff (hvalid : grammar.validate = .ok ()) :
    grammar.Collisionless ↔ ∀ rule, ¬ grammar.Offers rule "node_type" [] := by
  constructor
  · intro h rule hoffers
    obtain ⟨draws, run, hdraws, hrun⟩ :=
      exists_repeated (validate_eq_ok_iff.mp hvalid) hoffers 1
    obtain ⟨offered, hoffered, -⟩ := Option.bind_eq_some_iff.mp hoffers.1
    obtain ⟨-, -, hnever⟩ := h rule 1 .free draws [] _ run (Table.contains_of_get? hoffered) le_rfl
      hdraws hrun
    exact hnever _ rfl
  · exact collisionless_of_not_offers (weighed_of_validate hvalid)

/-- A grammar whose only leaf is grown from the word for the key. -/
def clashing : Grammar ℚ where
  rules := .ofList [("LEAF", .ofList [("node_type", [])])]
  wordWeights := .ofList [("LEAF", .ofList [("node_type", 1)])]
  textWeights := .ofList [("node_type", .ofList [("1", 1)])]
  root := "LEAF"
  vocabulary := .ofWords [⟨"node_type", .leaf .zone, some "LEAF"⟩]

/-- The standard words never clash; a word for the key passes the check and does. -/
theorem collisionless_iff_clashing :
    (uneven.validate = .ok () ∧ uneven.Collisionless) ∧
      clashing.validate = .ok () ∧ ¬ clashing.Collisionless := by
  have hclashing : clashing.validate = .ok () := validate_of_isOk (by decide +kernel)
  refine ⟨⟨validate_uneven, (collisionless_iff validate_uneven).mpr fun rule hoffers => ?_⟩,
    hclashing, fun h => (collisionless_iff hclashing).mp h "LEAF" ?_⟩
  · exact distinguished_of_validate validate_uneven rfl _ _ _ hoffers.1 rfl
  · exact ⟨rfl, .ofList [("node_type", 1)], 1, rfl, rfl, zero_lt_one⟩

end Grammar

end Deontic
