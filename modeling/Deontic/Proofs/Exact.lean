import Mathlib.Analysis.SpecialFunctions.Log.Basic
import Deontic.Scale

/-! The exact scale.  Probabilities are fractions, and a log-weight is given by the fraction whose
logarithm it is: sums of logarithms are products of fractions, the logarithm of one is zero, and the
logarithm of zero lies below all others.  `LogWeight.real` reads a log-weight as the real number it
stands for, and takes sums, differences and the order to those of the real numbers. -/

namespace Deontic

/-- The logarithm of a fraction that is not negative. -/
@[ext] structure LogWeight where
  mass : ℚ≥0
  deriving DecidableEq

namespace LogWeight

instance : Zero LogWeight := ⟨⟨1⟩⟩
instance : Bot LogWeight := ⟨⟨0⟩⟩
instance : Add LogWeight := ⟨fun a b => ⟨a.mass * b.mass⟩⟩
instance : Neg LogWeight := ⟨fun a => ⟨a.mass⁻¹⟩⟩
instance : Sub LogWeight := ⟨fun a b => ⟨a.mass / b.mass⟩⟩
instance : LinearOrder LogWeight := LinearOrder.lift' mass fun _ _ => LogWeight.ext

@[simp] theorem mass_zero : (0 : LogWeight).mass = 1 := rfl
@[simp] theorem mass_bot : (⊥ : LogWeight).mass = 0 := rfl
@[simp] theorem mass_add (a b : LogWeight) : (a + b).mass = a.mass * b.mass := rfl
@[simp] theorem mass_neg (a : LogWeight) : (-a).mass = a.mass⁻¹ := rfl
@[simp] theorem mass_sub (a b : LogWeight) : (a - b).mass = a.mass / b.mass := rfl

theorem le_iff {a b : LogWeight} : a ≤ b ↔ a.mass ≤ b.mass := Iff.rfl

theorem ne_bot_iff {a : LogWeight} : a ≠ ⊥ ↔ a.mass ≠ 0 :=
  not_congr ⟨fun h => h ▸ rfl, LogWeight.ext⟩

theorem add_ne_bot {a b : LogWeight} (ha : a ≠ ⊥) (hb : b ≠ ⊥) : a + b ≠ ⊥ := by
  rw [ne_bot_iff] at *
  exact mul_ne_zero ha hb

theorem sub_ne_bot {a b : LogWeight} (ha : a ≠ ⊥) (hb : b ≠ ⊥) : a - b ≠ ⊥ := by
  rw [ne_bot_iff] at *
  exact div_ne_zero ha hb

@[simp] theorem add_zero (a : LogWeight) : a + 0 = a := by
  ext
  simp

@[simp] theorem add_bot (a : LogWeight) : a + ⊥ = ⊥ := by
  ext
  simp

@[simp] theorem sub_zero (a : LogWeight) : a - 0 = a := by
  ext
  simp

theorem sub_self {a : LogWeight} (ha : a ≠ ⊥) : a - a = 0 := by
  ext
  rw [mass_sub, mass_zero, div_self (ne_bot_iff.mp ha)]

theorem add_sub_cancel {a b : LogWeight} (ha : a ≠ ⊥) : a + (b - a) = b := by
  ext
  rw [mass_add, mass_sub, mul_div_cancel₀ _ (ne_bot_iff.mp ha)]

theorem sub_nonneg {a b : LogWeight} (ha : a ≠ ⊥) : 0 ≤ b - a ↔ a ≤ b := by
  rw [le_iff, le_iff, mass_zero, mass_sub, one_le_div₀ (pos_of_ne_zero (ne_bot_iff.mp ha))]

theorem neg_sub (a b : LogWeight) : -(a - b) = b - a := by
  ext
  simp

/-- Moving from `a` to `b` and accepting weighs what the lighter of both weighs. -/
theorem add_min_sub {a b : LogWeight} (ha : a ≠ ⊥) : a + min 0 (b - a) = min a b := by
  rcases le_total a b with hab | hab
  · rw [min_eq_left ((sub_nonneg ha).mpr hab), min_eq_left hab, add_zero]
  · have hle : b - a ≤ 0 := by
      rw [le_iff, mass_zero, mass_sub]
      exact div_le_one_of_le₀ hab zero_le
    rw [min_eq_right hle, min_eq_right hab, add_sub_cancel ha]

theorem sub_eq_neg_add {a b c : LogWeight} (h : c ≠ ⊥) : b - a - 0 = -(a - b - c + c) := by
  ext
  simp only [mass_sub, mass_neg, mass_add, mass_zero, div_one]
  rw [div_mul_cancel₀ _ (ne_bot_iff.mp h), inv_div]

theorem sub_sub_add (a b c d : LogWeight) : a - b - c + d = a + d - (b + c) := by
  ext
  simp only [mass_add, mass_sub]
  rw [div_div, div_mul_eq_mul_div]

/-- The nearest double. -/
def double (p : ℚ) : Binary64 := .ofRatio (p < 0) p.num.natAbs p.den

/-- The real number that a log-weight stands for. -/
noncomputable def real (a : LogWeight) : ℝ := Real.log a.mass

@[simp] theorem real_zero : (0 : LogWeight).real = 0 := by simp [real]

theorem real_add {a b : LogWeight} (ha : a ≠ ⊥) (hb : b ≠ ⊥) : (a + b).real = a.real + b.real := by
  rw [ne_bot_iff] at ha hb
  rw [real, mass_add, NNRat.cast_mul, Real.log_mul (by exact_mod_cast ha) (by exact_mod_cast hb)]
  rfl

theorem real_neg (a : LogWeight) : (-a).real = -a.real := by
  rw [real, mass_neg, NNRat.cast_inv, Real.log_inv]
  rfl

theorem real_sub {a b : LogWeight} (ha : a ≠ ⊥) (hb : b ≠ ⊥) : (a - b).real = a.real - b.real := by
  rw [ne_bot_iff] at ha hb
  rw [real, mass_sub, NNRat.cast_div, Real.log_div (by exact_mod_cast ha) (by exact_mod_cast hb)]
  rfl

theorem real_le_real {a b : LogWeight} (ha : a ≠ ⊥) (hb : b ≠ ⊥) : a.real ≤ b.real ↔ a ≤ b := by
  rw [ne_bot_iff] at ha hb
  have ha : (0 : ℝ) < a.mass := by exact_mod_cast pos_of_ne_zero ha
  have hb : (0 : ℝ) < b.mass := by exact_mod_cast pos_of_ne_zero hb
  rw [real, real, Real.log_le_log_iff ha hb, le_iff]
  exact_mod_cast Iff.rfl

end LogWeight

/-- Fractions and their logarithms, without rounding. -/
instance : Scale ℚ LogWeight where
  ofInt n := n
  ofDouble
    | .finite negative mantissa exponent => Binary64.exactly negative mantissa exponent
    | _ => 0
  double := LogWeight.double
  add := (· + ·)
  sub := (· - ·)
  div := (· / ·)
  lt p q := p < q
  le p q := p ≤ q
  exactSum ps := .ok ps.sum
  log p := ⟨p.toNNRat⟩
  exp w := .ok w.mass
  certain := 0
  impossible := ⊥
  isImpossible w := w == ⊥
  plus := (· + ·)
  minus := (· - ·)
  negate := (- ·)
  isAtLeastCertain w := 0 ≤ w
  close := (· == ·)
  weightDouble w := .ofFloat (LogWeight.double w.mass).toFloat.log

namespace Scale

@[simp] theorem zero_rat : zero ℚ = 0 := rfl
@[simp] theorem one_rat : one ℚ = 1 := rfl
@[simp] theorem certain_rat : (certain ℚ : LogWeight) = 0 := rfl
@[simp] theorem plus_rat (a b : LogWeight) : plus ℚ a b = a + b := rfl
@[simp] theorem minus_rat (a b : LogWeight) : minus ℚ a b = a - b := rfl
@[simp] theorem negate_rat (a : LogWeight) : negate ℚ a = -a := rfl

theorem isImpossible_rat {a : LogWeight} : isImpossible ℚ a = false ↔ a ≠ ⊥ := by
  show (a == ⊥) = false ↔ _
  simp

/-- Exactly what is positive is possible. -/
theorem logOf_ne_bot {p : ℚ} : logOf p ≠ ⊥ ↔ 0 < p := by
  rw [logOf]
  split
  · next h =>
    have hpos : 0 < p := of_decide_eq_true h
    exact iff_of_true (LogWeight.ne_bot_iff.mpr (Rat.toNNRat_pos.mpr hpos).ne') hpos
  · next h =>
    have hnot : ¬0 < p := fun hpos => h (decide_eq_true hpos)
    exact iff_of_false (fun hne => hne rfl) hnot

theorem mass_logOf {p : ℚ} (h : 0 ≤ p) : ((logOf p : LogWeight).mass : ℚ) = p := by
  rw [logOf]
  split
  · exact Rat.coe_toNNRat p h
  · next hnot =>
    have hle : p ≤ 0 := not_lt.mp fun hpos => hnot (decide_eq_true hpos)
    exact (le_antisymm hle h).symm

end Scale

end Deontic
