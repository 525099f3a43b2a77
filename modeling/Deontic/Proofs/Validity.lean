import Deontic.Grammar.Validation
import Deontic.Proofs.Exact
import Deontic.Proofs.Lookup

/-! What a grammar has that passes its check. -/

namespace Deontic

theorem Except.bind_eq_ok_iff {ε α β : Type} {x : Except ε α} {f : α → Except ε β} {b : β} :
    x >>= f = .ok b ↔ ∃ a, x = .ok a ∧ f a = .ok b := by
  cases x with
  | error => exact ⟨nofun, fun ⟨_, h, _⟩ => by cases h⟩
  | ok a =>
    constructor
    · intro h; exact ⟨a, rfl, h⟩
    · rintro ⟨a', h, hf⟩; cases h; exact hf

/-- A check succeeds with what comes after it. -/
theorem Except.guard_eq_ok_iff {ε β : Type} {failed : Prop} [Decidable failed] {fault : ε}
    {rest : Except ε β} {b : β} :
    (if failed then throw fault >>= fun _ : PUnit => rest else rest) = .ok b ↔
      ¬ failed ∧ rest = .ok b := by
  by_cases h : failed
  · rw [if_pos h]
    exact ⟨nofun, fun k => (k.1 h).elim⟩
  · rw [if_neg h]
    exact ⟨fun k => ⟨h, k⟩, fun k => k.2⟩

/-- A check of all members succeeds if the check of each does. -/
theorem Except.forM_eq_ok_iff {ε α : Type} {f : α → Except ε Unit} {xs : List α} :
    xs.forM f = .ok () ↔ ∀ x ∈ xs, f x = .ok () := by
  induction xs with
  | nil => exact iff_of_true rfl nofun
  | cons x rest ih =>
    show (f x >>= fun _ => rest.forM f) = .ok () ↔ _
    rw [Except.bind_eq_ok_iff, List.forall_mem_cons]
    constructor
    · rintro ⟨⟨⟩, hx, hrest⟩; exact ⟨hx, ih.mp hrest⟩
    · rintro ⟨hx, hrest⟩; exact ⟨(), hx, ih.mpr hrest⟩

namespace Grammar

/-- What the check of weights says: none is negative, and together they come close to one. -/
theorem checked_of_checkWeights {subject : Subject} {weights : List ℚ}
    (h : checkWeights subject weights = .ok ()) : (∀ p ∈ weights, 0 ≤ p) ∧ 0 < weights.sum := by
  obtain ⟨-, h⟩ := Except.guard_eq_ok_iff.mp h
  obtain ⟨hneg, h⟩ := Except.guard_eq_ok_iff.mp h
  obtain ⟨total, htotal, h⟩ := Except.bind_eq_ok_iff.mp h
  obtain rfl : weights.sum = total := by cases htotal; rfl
  constructor
  · intro p hp
    exact not_lt.mp fun hlt => hneg (List.any_eq_true.mpr ⟨p, hp, decide_eq_true hlt⟩)
  · cases hone : Scale.isNearlyOne weights.sum with
    | false =>
      rw [hone] at h
      cases h
    | true =>
      have hnear : 1 - weights.sum ≤ 1 / 1000000 :=
        of_decide_eq_true (Bool.and_eq_true_iff.mp hone).2
      linarith

/-- Weights that are all at least zero. -/
structure Weighed (grammar : Grammar ℚ) : Prop where
  words {rule : String} {weights : Table String ℚ} : grammar.wordWeights.get? rule = some weights →
    ∀ entry ∈ weights.entries, 0 ≤ entry.2
  texts {word : String} {weights : Table String ℚ} : grammar.textWeights.get? word = some weights →
    ∀ entry ∈ weights.entries, 0 ≤ entry.2

variable {grammar : Grammar ℚ}

/-- What the check of a rule says. -/
theorem checked_of_checkRule {rule : String} {offered : Table String (List String)}
    (h : grammar.checkRule rule offered = .ok ()) :
    ∃ weights, grammar.wordWeights.get? rule = some weights ∧
      sameNames weights.keys offered.keys = true ∧
      checkWeights (.rule rule) weights.values = .ok () ∧
      ∀ entry ∈ offered.entries, grammar.checkOffer rule entry.1 entry.2 = .ok () := by
  rw [checkRule] at h
  cases hweights : grammar.wordWeights.get? rule with
  | none => rw [hweights] at h; cases h
  | some weights =>
    rw [hweights] at h
    dsimp only at h
    split at h
    · cases h
    · next hnames =>
      obtain ⟨⟨⟩, hchecked, hoffers⟩ := Except.bind_eq_ok_iff.mp h
      rw [Bool.not_eq_true', Bool.not_eq_false] at hnames
      exact ⟨weights, rfl, hnames, hchecked, Except.forM_eq_ok_iff.mp hoffers⟩

/-- What the check of a grammar says. -/
theorem checked_of_validate (h : grammar.validate = .ok ()) :
    (∀ entry ∈ grammar.rules.entries, grammar.checkRule entry.1 entry.2 = .ok ()) ∧
      (∀ rule ∈ grammar.wordWeights.keys, grammar.rules.contains rule = true) ∧
      ∀ entry ∈ grammar.textWeights.entries,
        checkWeights (.word entry.1) entry.2.values = .ok () := by
  obtain ⟨known, -, h⟩ := Except.bind_eq_ok_iff.mp h
  cases known with
  | false => cases h
  | true =>
    obtain ⟨⟨⟩, hrules, h⟩ := Except.bind_eq_ok_iff.mp h
    obtain ⟨⟨⟩, hknown, htexts⟩ := Except.bind_eq_ok_iff.mp h
    rw [Except.forM_eq_ok_iff] at hrules hknown htexts
    refine ⟨hrules, fun rule hrule => ?_, htexts⟩
    have hcontains := hknown rule hrule
    split at hcontains
    · assumption
    · cases hcontains

/-- Every rule whose words are weighed offers exactly these words. -/
theorem exists_offered_of_validate (h : grammar.validate = .ok ()) {rule : String}
    {weights : Table String ℚ} (hweights : grammar.wordWeights.get? rule = some weights) :
    ∃ offered, grammar.rules.get? rule = some offered ∧
      sameNames weights.keys offered.keys = true ∧ ∀ p ∈ weights.values, 0 ≤ p := by
  obtain ⟨hrules, hknown, -⟩ := checked_of_validate h
  obtain ⟨offered, hoffered⟩ :=
    Table.exists_of_contains (hknown rule (Table.mem_keys_of_get? hweights))
  obtain ⟨weights', hsame, hnames, hchecked, -⟩ :=
    checked_of_checkRule (hrules _ (Table.mem_of_get?_eq hoffered))
  obtain rfl := Option.some.inj (hweights.symm.trans hsame)
  exact ⟨offered, hoffered, hnames, (checked_of_checkWeights hchecked).1⟩

theorem weighed_of_validate (h : grammar.validate = .ok ()) : grammar.Weighed := by
  constructor
  · intro rule weights hweights entry hentry
    obtain ⟨_, -, -, hnonneg⟩ := exists_offered_of_validate h hweights
    exact hnonneg _ (List.mem_map_of_mem hentry)
  · intro word weights hweights entry hentry
    obtain ⟨-, -, htexts⟩ := checked_of_validate h
    exact (checked_of_checkWeights (htexts _ (Table.mem_of_get?_eq hweights))).1 _
      (List.mem_map_of_mem hentry)

/-- Every word that a rule offers is one of the vocabulary. -/
theorem lookup_of_validate (h : grammar.validate = .ok ()) {rule word : String}
    {offered : Table String (List String)} {parts : List String}
    (hrule : grammar.rules.get? rule = some offered) (hword : offered.get? word = some parts) :
    ∃ found, grammar.vocabulary.lookup word = .ok found := by
  obtain ⟨hrules, -, -⟩ := checked_of_validate h
  obtain ⟨_, -, -, -, hoffers⟩ := checked_of_checkRule (hrules _ (Table.mem_of_get?_eq hrule))
  have hoffer := hoffers _ (Table.mem_of_get?_eq hword)
  obtain ⟨found, hfound, -⟩ := Except.bind_eq_ok_iff.mp hoffer
  cases hlookup : grammar.vocabulary.lookup word with
  | error => rw [hlookup] at hfound; cases hfound
  | ok found => exact ⟨found, rfl⟩

end Grammar

end Deontic
