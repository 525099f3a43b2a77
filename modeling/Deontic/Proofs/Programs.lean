import Deontic.Metropolis
import Deontic.Placement
import Deontic.Proofs.Fairness
import Deontic.Proofs.Growth
import Deontic.Proofs.Validity

/-! The random programs of the library: the model, growth, placements, selections and proposals.
Under a grammar that passes its check their distributions are fair (`Grammar.Library.fair`), and the
number of nested calls does not change which ways they go, as long as it is not below the length of
the way (`Grammar.Library.steady`). -/

namespace Deontic

/-- A program whose ways of some length are the same for all numbers of nested calls from that
length on. -/
def Program.Steady {P α : Type} (program : Program P α) : Prop :=
  ∀ calls calls' way result, (program calls).Follows way result → way.length ≤ calls' →
    (program calls').Follows way result

namespace Program.Steady

variable {P α β : Type}

theorem const (s : Sampler P α) : Steady fun _ => s := fun _ _ _ _ h _ => h

theorem bind {first : Program P α} {second : α → Program P β} (h : first.Steady)
    (k : ∀ a, (second a).Steady) :
    Steady fun calls => (first calls).bind fun a => second a calls := by
  intro calls calls' way result hway hlength
  obtain ⟨a, way, rest, rfl, hfirst, hsecond⟩ := Sampler.follows_bind.mp hway
  rw [List.length_append] at hlength
  exact Sampler.follows_bind.mpr ⟨a, way, rest, rfl, h _ _ _ _ hfirst (by omega),
    k a _ _ _ _ hsecond (by omega)⟩

theorem under {program : Program P α} (h : program.Steady) (key : Value) :
    Steady fun calls => (program calls).under key := by
  intro calls calls' way result hway hlength
  obtain ⟨inner, rfl, hinner⟩ := Sampler.follows_under.mp hway
  rw [Way.under, List.length_map] at hlength
  exact Sampler.follows_under.mpr ⟨inner, rfl, h _ _ _ _ hinner hlength⟩

end Program.Steady

/-! ### Growth -/

namespace Distribution

theorem fair_bernoulli (yes : ℚ) : (bernoulli yes).Fair := trivial

theorem fair_ofTexts {weights : Table String ℚ} (h : ∀ entry ∈ weights.entries, 0 ≤ entry.2) :
    (ofTexts weights).Fair := by
  refine ⟨List.pairwise_map.mpr (weights.distinct.imp fun {a b} hne => ?_), ?_⟩
  · rw [Bool.eq_false_iff] at hne ⊢
    intro heq
    have := Value.text_beq heq
    exact hne (beq_iff_eq.mpr (Value.text.inj this).symm)
  · intro entry hentry
    obtain ⟨original, horiginal, rfl⟩ := List.mem_map.mp hentry
    exact h original horiginal

theorem density_ofTexts (weights : Table String ℚ) (text : String) :
    (ofTexts weights).density (.text text) = (weights.get? text).getD 0 := by
  have hkeys : (fun entry : String × ℚ => Value.text entry.1 == Value.text text) =
      fun entry => entry.1 == text := by
    funext entry
    rw [Bool.eq_iff_iff]
    constructor
    · intro heq
      rw [Value.text.inj (Value.text_beq heq)]
      exact BEq.rfl
    · intro heq
      rw [eq_of_beq heq]
      exact BEq.rfl
  rw [ofTexts, density, List.find?_map, Option.map_map]
  exact congrArg (fun found => (Option.map Prod.snd found).getD 0)
    (congrArg weights.entries.find? hkeys)

/-- Exactly the texts of positive weight are possible. -/
theorem possible_ofTexts {weights : Table String ℚ} {text : String} :
    (ofTexts weights).logDensity (.text text) ≠ (⊥ : LogWeight) ↔
      ∃ p, weights.get? text = some p ∧ 0 < p := by
  rw [logDensity, Scale.logOf_ne_bot, density_ofTexts]
  cases weights.get? text with
  | none => simp
  | some p => simp

theorem mem_keys_of_possible {weights : Table String ℚ} {text : String}
    (h : (ofTexts weights).logDensity (.text text) ≠ (⊥ : LogWeight)) : text ∈ weights.keys := by
  obtain ⟨p, hp, -⟩ := possible_ofTexts.mp h
  exact Table.mem_keys_of_get? hp

end Distribution

namespace Grammar

variable {grammar : Grammar ℚ}

theorem fair_entry {ν : Type} (table : Table String ν) (name : String) :
    (entry table name : Sampler ℚ ν).Fair := by
  rw [entry]
  cases table.get? name <;> trivial

theorem fair_chooseWord (h : grammar.Weighed) (index : Int) (rule : String) :
    (chooseWord grammar index rule).Fair := by
  unfold chooseWord entry
  cases hweights : grammar.wordWeights.get? rule with
  | none => trivial
  | some weights =>
    refine (Sampler.fair_sample (Distribution.fair_ofTexts (h.words hweights))).bind
      fun chosen => ?_
    cases chosen.text? <;> trivial

theorem fair_growLeaf (h : grammar.Weighed) (index : Int) (word : String) :
    (growLeaf grammar index word).Fair := by
  unfold growLeaf
  cases hweights : grammar.textWeights.get? word with
  | none => trivial
  | some weights =>
    refine (Sampler.fair_sample (Distribution.fair_ofTexts (h.texts hweights))).bind
      fun chosen => ?_
    cases chosen.text? with
    | none => trivial
    | some text => exact Sampler.fair_ofExcept _

theorem fair_grow (h : grammar.Weighed) (calls : Nat) (index : Int) (rule : String) :
    (grammar.grow calls index rule).Fair := by
  induction calls generalizing index rule with
  | zero => trivial
  | succ calls ih =>
    rw [grow_succ]
    refine (fair_chooseWord h index rule).bind fun word => (fair_entry _ _).bind fun offered =>
      (fair_entry _ _).bind fun parts => ?_
    rcases parts with _ | ⟨first, _ | ⟨second, _ | ⟨_, _⟩⟩⟩
    · exact fair_growLeaf h index word
    · exact (ih _ _).bind fun left => Sampler.fair_ofExcept _
    · exact (ih _ _).bind fun left => (ih _ _).bind fun right => Sampler.fair_ofExcept _
    · trivial

theorem steady_growth {P : Type} (grammar : Grammar P) (index : Int) (rule : String) :
    (grammar.growth index rule).Steady :=
  fun _ _ _ _ h hlength => (Grown.of_follows h).follows hlength

end Grammar

/-! ### Selection -/

namespace Tree

theorem fair_stop (stop : Except Fault ℚ) (key : Value) {f : Value → Sampler ℚ Selection}
    (hf : ∀ value, (f value).Fair) :
    ((Sampler.ofExcept stop).bind fun stop => (Sampler.sample key (.bernoulli stop)).bind f).Fair :=
  (Sampler.fair_ofExcept stop).bind fun _ =>
    Sampler.Fair.bind (Sampler.fair_sample (Distribution.fair_bernoulli _)) hf

theorem fair_select (leafOnly excludeRoot : Bool) (t : Tree) (index depth : Int) :
    (t.select leafOnly excludeRoot index depth : Sampler ℚ Selection).Fair := by
  induction t generalizing excludeRoot index depth with
  | leaf | empty =>
    refine fair_stop _ _ fun done => ?_
    cases done.isTrue <;> trivial
  | branch kind left right stored ihl ihr =>
    refine fair_stop _ _ fun done => ?_
    cases done.isTrue with
    | true => trivial
    | false =>
      refine Sampler.Fair.bind (Sampler.fair_sample (Distribution.fair_bernoulli _))
        fun toLeft => ?_
      cases toLeft.isTrue with
      | true => exact ihl ..
      | false => exact ihr ..

end Tree

/-! ### Placements -/

namespace Placement

theorem eq_toNat_of_checkCount {zones : Int} {n : Nat} (h : checkCount zones = .ok n) :
    n = zones.toNat := by
  unfold checkCount at h
  split at h
  · cases h
  · split at h
    · cases h
    · exact (Except.ok.inj h).symm

theorem eq_toNat_of_lift {zones : Int} {n : Nat}
    (h : (liftM (checkCount zones) : Except Fault Nat) = .ok n) : n = zones.toNat := by
  cases hchecked : checkCount zones with
  | error => rw [hchecked] at h; cases h
  | ok m =>
    rw [hchecked] at h
    cases h
    exact eq_toNat_of_checkCount hchecked

/-- As many weights as zones, and none of them negative. -/
structure Row (count : Int) (weights : List ℚ) : Prop where
  length : weights.length = count.toNat
  nonneg : ∀ p ∈ weights, 0 ≤ p

variable {count : Int} {weights : List ℚ}

theorem row_uniform (h : uniform count = .ok weights) : Row count weights := by
  unfold uniform at h
  split at h
  · cases h
  · obtain ⟨n, hn, h⟩ := Except.bind_eq_ok_iff.mp h
    obtain rfl := eq_toNat_of_lift hn
    cases h
    refine ⟨List.length_replicate, fun p hp => ?_⟩
    obtain ⟨hpos, rfl⟩ := List.mem_replicate.mp hp
    have hcount : (0 : ℚ) < count := by exact_mod_cast (show 0 < count by omega)
    exact div_nonneg (by norm_num [Scale.ofInt]) hcount.le

/-- One weight everywhere but at one place. -/
theorem Row.set {p q : ℚ} (hp : 0 ≤ p) (hq : 0 ≤ q) (count : Int) (place : Nat) :
    Row count ((List.replicate count.toNat p).set place q) := by
  refine ⟨by rw [List.length_set, List.length_replicate], fun weight hweight => ?_⟩
  rcases List.mem_or_eq_of_mem_set hweight with hmem | rfl
  · exact hp.trans (List.eq_of_mem_replicate hmem).ge
  · exact hq

theorem row_obliged {normColour zone colour : String}
    (h : obliged normColour zone colour count = .ok weights) : Row count weights := by
  unfold obliged at h
  split at h
  · exact row_uniform h
  · obtain ⟨n, hn, h⟩ := Except.bind_eq_ok_iff.mp h
    obtain ⟨ruled, -, h⟩ := Except.bind_eq_ok_iff.mp h
    obtain rfl := eq_toNat_of_lift hn
    cases h
    exact .set le_rfl zero_le_one count ruled

theorem row_prohibited {normColour zone colour : String}
    (h : prohibited normColour zone colour count = .ok weights) : Row count weights := by
  unfold prohibited at h
  split at h
  · exact row_uniform h
  · obtain ⟨n, hn, h⟩ := Except.bind_eq_ok_iff.mp h
    obtain ⟨ruled, -, h⟩ := Except.bind_eq_ok_iff.mp h
    obtain rfl := eq_toNat_of_lift hn
    have hallowed : Row count _ := .set zero_le_one le_rfl count ruled
    dsimp only at h
    split at h
    · cases h
    · next htotal =>
      cases h
      have htotal := not_le.mp fun hle => htotal (decide_eq_true hle)
      refine ⟨(List.length_map _).trans hallowed.length, List.forall_mem_map.mpr fun p hp => ?_⟩
      exact div_nonneg (hallowed.nonneg p hp) htotal.le

/-- What a norm weighs the zones by is a row of weights. -/
theorem row_zones {colour : String} {norm : Tree} (h : zones colour norm count = .ok weights) :
    Row count weights := by
  unfold zones at h
  split at h
  · exact row_obliged h
  · exact row_prohibited h
  · exact row_uniform h

theorem fair_numbered (h : ∀ p ∈ weights, 0 ≤ p) :
    (Distribution.categorical (weights.zipIdx.map fun (p, i) => (Value.int (i + 1), p))).Fair := by
  constructor
  · have hnumbers : (weights.zipIdx.map Prod.snd).Nodup := by
      rw [List.zipIdx_map_snd]
      exact List.nodup_range'
    refine List.pairwise_map.mpr ((List.pairwise_map.mp hnumbers).imp fun {a b} hne => ?_)
    rw [Bool.eq_false_iff]
    intro heq
    have := Value.int_beq_int.mp heq
    omega
  · intro entry hentry
    obtain ⟨⟨p, i⟩, hmem, rfl⟩ := List.mem_map.mp hentry
    exact h p (List.fst_mem_of_mem_zipIdx hmem)

theorem fair_colours : (Distribution.categorical (colours.map fun colour =>
    (Value.text colour, (Scale.ratio 1 colours.length : ℚ)))).Fair := by
  constructor
  · decide
  · intro entry hentry
    obtain ⟨colour, -, rfl⟩ := List.mem_map.mp hentry
    exact div_nonneg zero_le_one (Int.cast_nonneg (Int.natCast_nonneg _))

theorem fair_task (calls : Nat) : (task calls : Sampler ℚ String).Fair := by
  refine (Sampler.fair_sample fair_colours).bind fun chosen => ?_
  cases chosen.text? <;> trivial

theorem fair_program {grammar : Grammar ℚ} (h : grammar.Weighed) (calls : Nat) :
    (program grammar calls).Fair := by
  refine ((fair_task calls).under _).bind fun colour =>
    ((Grammar.fair_grow h calls 1 grammar.root).under _).bind fun norm => ?_
  have hzones : ((Sampler.ofExcept (zones colour norm zoneCount)).bind fun weights : List ℚ =>
      (Sampler.sample (.text "zone") (.categorical (weights.zipIdx.map fun (p, i) =>
        (Value.int (i + 1), p)))).bind fun zone =>
          .pure (⟨colour, norm, zone⟩ : Placement)).Fair := by
    cases hweights : (zones colour norm zoneCount : Except Fault (List ℚ)) with
    | error => trivial
    | ok weights =>
      exact Sampler.Fair.bind (Sampler.fair_sample (fair_numbered (row_zones hweights).nonneg))
        fun _ => trivial
  cases hruled : isRuled norm with
  | true | false => exact hzones

theorem steady_program (grammar : Grammar ℚ) : (program grammar).Steady := by
  have htask : Program.Steady (task : Program ℚ String) := .const (task 0)
  refine (htask.under _).bind fun colour => ?_
  exact ((Grammar.steady_growth grammar _ _).under _).bind fun norm => .const _

end Placement

/-! ### Proposals -/

namespace Grammar

variable {grammar : Grammar ℚ}

theorem fair_model (h : grammar.Weighed) (calls : Nat) : (grammar.model calls).Fair :=
  (fair_grow h calls 1 grammar.root).under _

theorem steady_model {P : Type} (grammar : Grammar P) : grammar.model.Steady :=
  (steady_growth grammar 1 grammar.root).under _

theorem fair_proposal (h : grammar.Weighed) (root : Tree) (calls : Nat) :
    (grammar.proposal root calls).Fair := by
  refine ((Tree.fair_select false false root 1 1).under _).bind fun picked => ?_
  split
  · trivial
  · exact (Sampler.fair_ofExcept _).bind fun rule =>
      ((fair_grow h _ _ _).under _).bind fun _ => trivial

theorem steady_proposal (grammar : Grammar ℚ) (root : Tree) : (grammar.proposal root).Steady := by
  refine (Program.Steady.const _).bind fun picked => ?_
  split
  · exact .const _
  · exact (Program.Steady.const _).bind fun rule =>
      ((steady_growth grammar _ _).under _).bind fun _ => .const _

/-- The programs of the library, with what they need to be run. -/
inductive Library (grammar : Grammar ℚ) : {α : Type} → Program ℚ α → Prop
  | model : Library grammar grammar.model
  | growth (index : Int) (rule : String) : Library grammar (grammar.growth index rule)
  | placement : Library grammar (Placement.program grammar)
  | selection (leafOnly excludeRoot : Bool) (t : Tree) (index depth : Int) :
      Library grammar fun _ => t.select leafOnly excludeRoot index depth
  | proposal (root : Tree) : Library grammar (grammar.proposal root)

theorem Library.fair {α : Type} {program : Program ℚ α} (h : grammar.Library program)
    (hweighed : grammar.Weighed) (calls : Nat) : (program calls).Fair := by
  cases h with
  | model => exact fair_model hweighed calls
  | growth index rule => exact fair_grow hweighed calls index rule
  | placement => exact Placement.fair_program hweighed calls
  | selection => exact Tree.fair_select ..
  | proposal root => exact fair_proposal hweighed root calls

theorem Library.steady {α : Type} {program : Program ℚ α} (h : grammar.Library program) :
    program.Steady := by
  cases h with
  | model => exact steady_model grammar
  | growth index rule => exact steady_growth grammar index rule
  | placement => exact Placement.steady_program grammar
  | selection => exact .const _
  | proposal root => exact steady_proposal grammar root

/-- A grammar in which obligations have two parts under one rule and one under another. -/
def uneven : Grammar ℚ where
  rules := .ofList
    [("NORMS", .ofList [("Norm", ["DUTY"]), ("Obl", ["COLOUR", "COLOUR"])]),
     ("DUTY", .ofList [("Obl", ["COLOUR"])]), ("COLOUR", .ofList [("Colour", [])])]
  wordWeights := .ofList
    [("NORMS", .ofList [("Norm", 1 / 2), ("Obl", 1 / 2)]), ("DUTY", .ofList [("Obl", 1)]),
     ("COLOUR", .ofList [("Colour", 1)])]
  textWeights := .ofList [("Colour", .ofList [("red", 1 / 3), ("blue", 2 / 3)])]
  root := "NORMS"
  vocabulary := .standard

/-- A grammar whose check can be told to pass is valid. -/
theorem validate_of_isOk {grammar : Grammar ℚ} (h : grammar.validate.isOk = true) :
    grammar.validate = .ok () := by
  cases hchecked : grammar.validate with
  | error =>
    rw [hchecked] at h
    cases h
  | ok => rfl

theorem validate_uneven : uneven.validate = .ok () := validate_of_isOk (by decide +kernel)

end Grammar

end Deontic
