import ExactAlgebra.Ratio.Arithmetic
import Mathlib

/-!
Ratios and the rational numbers they stand for. Each operation on ratios is the operation on
rational numbers, and every result is in lowest terms; a ratio in lowest terms is determined by
its value.
-/
namespace ExactAlgebra

section Results

variable {α β : Type} {x : Except Failure α} {b : β}

theorem exists_of_bind {k : α → Except Failure β} (h : x >>= k = .ok b) :
    ∃ a, x = .ok a ∧ k a = .ok b := by
  cases x with
  | error _ => cases h
  | ok a => exact ⟨a, rfl, h⟩

theorem exists_of_map {g : α → β} (h : x.map g = .ok b) : ∃ a, x = .ok a ∧ g a = b := by
  cases x with
  | error _ => cases h
  | ok a =>
    cases h
    exact ⟨a, rfl, rfl⟩

theorem error_of_bind {k : α → Except Failure β} {failure : Failure}
    (h : x >>= k = .error failure) :
    x = .error failure ∨ ∃ a, x = .ok a ∧ k a = .error failure := by
  cases x with
  | error _ =>
    cases h
    exact .inl rfl
  | ok a => exact .inr ⟨a, rfl, h⟩

theorem error_of_map {g : α → β} {failure : Failure} (h : x.map g = .error failure) :
    x = .error failure := by
  cases x with
  | error _ =>
    cases h
    rfl
  | ok a => cases h

theorem exists_of_toOption {g : α → β} (h : x.toOption.map g = some b) :
    ∃ a, x = .ok a ∧ g a = b := by
  cases x with
  | error _ => cases h
  | ok a =>
    cases h
    exact ⟨a, rfl, rfl⟩

end Results

namespace Ratio

/-- No common factor, and the sign on the numerator. -/
structure LowestTerms (r : Ratio) : Prop where
  positive : 0 < r.den
  coprime : r.num.natAbs.Coprime r.den.natAbs

section Value

variable (r s : Ratio)

theorem value_eq : r.value = r.num / r.den := Rat.divInt_eq_div _ _

theorem den_cast_ne_zero : (r.den : ℚ) ≠ 0 := Int.cast_ne_zero.mpr r.den_ne_zero

@[simp] theorem value_ofRat (q : ℚ) : (ofRat q).value = q := Rat.num_divInt_den q

@[simp] theorem value_ofInt (n : ℤ) : (ofInt n).value = n := by
  simp [value_eq, ofInt]

@[simp] theorem value_zero : zero.value = 0 := by simp [zero]

@[simp] theorem value_reduce : r.reduce.value = r.value := value_ofRat _

@[simp] theorem value_add : (r.add s).value = r.value + s.value := by
  have hr := r.den_cast_ne_zero
  have hs := s.den_cast_ne_zero
  rw [add, value_reduce]
  simp only [value_eq, Int.cast_add, Int.cast_mul]
  field_simp

@[simp] theorem value_neg : r.neg.value = -r.value := by
  rw [neg, value_reduce]
  simp only [value_eq, Int.cast_neg, neg_div]

@[simp] theorem value_mul : (r.mul s).value = r.value * s.value := by
  have hr := r.den_cast_ne_zero
  have hs := s.den_cast_ne_zero
  rw [mul, value_reduce]
  simp only [value_eq, Int.cast_mul]
  field_simp

theorem value_eq_zero_iff : r.value = 0 ↔ r.num = 0 := by
  rw [value_eq, div_eq_zero_iff, or_iff_left r.den_cast_ne_zero, Int.cast_eq_zero]

@[simp] theorem isZero_iff : r.isZero = true ↔ r.value = 0 := by
  rw [value_eq_zero_iff, isZero, beq_iff_eq]

@[simp] theorem same_iff : r.same s = true ↔ r.value = s.value := by
  have hr := r.den_cast_ne_zero
  have hs := s.den_cast_ne_zero
  rw [same, beq_iff_eq, value_eq, value_eq, div_eq_div_iff hr hs]
  norm_cast

theorem isNegative_iff : r.isNegative = true ↔ r.value < 0 := by
  have nonzero := r.den_ne_zero
  rw [isNegative, value_eq, div_neg_iff, Bool.and_eq_true, bne_iff_ne, bne_iff_ne]
  simp only [Int.cast_pos, Int.cast_lt_zero]
  by_cases hn : r.num < 0 <;> by_cases hd : r.den < 0 <;> simp [hn, hd] <;> omega

theorem value_abs : r.abs.value = |r.value| := by
  rw [abs, value_reduce, value_eq, value_eq, abs_div]
  simp

theorem isOne_iff : r.isOne = true ↔ r.value = 1 := by
  rw [isOne, beq_iff_eq, value_eq, div_eq_one_iff_eq r.den_cast_ne_zero, Int.cast_inj]

theorem ofRat_lowestTerms (q : ℚ) : (ofRat q).LowestTerms :=
  ⟨Int.natCast_pos.mpr q.den_pos, q.reduced⟩

theorem reduce_lowestTerms : r.reduce.LowestTerms := ofRat_lowestTerms _

theorem add_lowestTerms : (r.add s).LowestTerms := reduce_lowestTerms _

theorem mul_lowestTerms : (r.mul s).LowestTerms := reduce_lowestTerms _

theorem LowestTerms.ofRat_value {r : Ratio} (h : r.LowestTerms) : ofRat r.value = r := by
  have num : r.value.num = r.num := by
    rw [value_eq, Rat.num_div_eq_of_coprime h.positive h.coprime]
  have den : (r.value.den : ℤ) = r.den := by
    rw [value_eq, Rat.den_div_eq_of_coprime h.positive h.coprime]
  obtain ⟨n, d, nonzero⟩ := r
  simp only [ofRat, num, den]

/-- A ratio in lowest terms is determined by its value. -/
theorem LowestTerms.eq_of_value_eq {r s : Ratio} (hr : r.LowestTerms) (hs : s.LowestTerms)
    (same : r.value = s.value) : r = s := by
  rw [← hr.ofRat_value, ← hs.ofRat_value, same]

@[simp] theorem reduce_ofRat (q : ℚ) : (ofRat q).reduce = ofRat q := by
  rw [reduce, value_ofRat]

end Value

section Quotients

variable {r s : Ratio}

theorem div?_of_ne_zero (h : s.value ≠ 0) : r.div? s = some (ofRat (r.value / s.value)) := by
  have hn : s.num ≠ 0 := fun hz => h ((s.value_eq_zero_iff).mpr hz)
  have hr := r.den_cast_ne_zero
  have hs := s.den_cast_ne_zero
  have hc : (s.num : ℚ) ≠ 0 := Int.cast_ne_zero.mpr hn
  rw [div?, dif_neg hn, reduce]
  congr 2
  simp only [value_eq, Int.cast_mul]
  field_simp

theorem intPower_eq (base : ℤ) (n : ℕ) : intPower base n = base ^ n := by
  unfold intPower
  split
  · next h => rw [h, pow_zero]
  · next hn =>
    split
    · next small =>
      -- only the parity of the exponent counts for the bases -1, 0 and 1
      have cases : base = -1 ∨ base = 0 ∨ base = 1 := by omega
      split
      · next even =>
        have he : Even n := Nat.even_iff.mpr even
        rcases cases with rfl | rfl | rfl
        · rw [he.neg_one_pow]; rfl
        · rw [zero_pow hn]; rfl
        · rw [one_pow]; rfl
      · next odd =>
        have ho : Odd n := Nat.not_even_iff_odd.mp fun he => odd (Nat.even_iff.mp he)
        rcases cases with rfl | rfl | rfl
        · rw [ho.neg_one_pow]
        · rw [zero_pow hn]
        · rw [one_pow]
    · rfl

theorem natPower_eq (r : Ratio) (n : ℕ) : r.natPower n = ofRat (r.value ^ n) := by
  rw [natPower, reduce]
  congr 1
  rw [value_eq]
  simp only [intPower_eq, Int.cast_pow]
  rw [← div_pow, ← value_eq, value_reduce]

/-- Only zero under a negative exponent has no power. -/
theorem pow?_of_zero (zero : r.value = 0) {n : ℤ} (negative : n < 0) : r.pow? n = none := by
  have num : r.num = 0 := (r.value_eq_zero_iff).mp zero
  cases n with
  | ofNat k => exact absurd negative (Int.natCast_nonneg k).not_gt
  | negSucc k => simp [pow?, inv?, div?, num]

theorem pow?_eq_some {n : ℤ} (possible : r.value = 0 → 0 ≤ n) :
    r.pow? n = some (ofRat (r.value ^ n)) := by
  cases n with
  | ofNat k =>
    rw [pow?, natPower_eq]
    simp
  | negSucc k =>
    have nonzero : r.value ≠ 0 := fun zero => by
      have := possible zero
      omega
    rw [pow?, inv?, div?_of_ne_zero nonzero, Option.map_some, natPower_eq]
    simp [one, zpow_negSucc]

end Quotients

end Ratio

end ExactAlgebra
