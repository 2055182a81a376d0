import ExactAlgebra.Proofs.Ratio

/-!
Ratios as representations of rational numbers. Every operation gives the one ratio in lowest terms
that holds its result, or fails for a division by zero; a sum may be taken over any common
denominator. Tests and comparisons agree with the rational numbers. So two ratios are the same
exactly when each can take the place of the other everywhere.
-/
namespace ExactAlgebra

/-- A result that is there exactly under a condition, with what it answers then; where the condition
fails, so does the result, for one cause. -/
structure Yields {α : Type} (result : Except Failure α) (possible : Prop) (answers : α → Prop)
    (cause : Failure) : Prop where
  ok_iff : ∀ a, result = .ok a ↔ possible ∧ answers a
  error_iff : ∀ failure, result = .error failure ↔ ¬possible ∧ failure = cause

section Yielding

variable {α : Type} {possible : Prop} {answers : α → Prop} {a : α} {cause : Failure}

theorem Yields.of_ok (holds : possible) (answer : answers a) (only : ∀ b, answers b → b = a) :
    Yields (.ok a) possible answers cause := by
  constructor
  · intro b
    rw [Except.ok.injEq, and_iff_right holds]
    constructor
    · rintro rfl
      exact answer
    · exact fun other => (only b other).symm
  · exact fun failure => iff_of_false nofun fun h => h.1 holds

theorem Yields.of_error (fails : ¬possible) : Yields (.error cause) possible answers cause := by
  constructor
  · exact fun b => iff_of_false nofun fun h => fails h.1
  · intro failure
    rw [Except.error.injEq, and_iff_right fails, eq_comm]

theorem Yields.of_ite {impossible : Prop} [Decidable impossible]
    (condition : possible ↔ ¬impossible) (answer : answers a) (only : ∀ b, answers b → b = a) :
    Yields (if impossible then .error cause else .ok a) possible answers cause := by
  split
  · next fails => exact .of_error fun holds => condition.mp holds fails
  · next holds => exact .of_ok (condition.mpr holds) answer only

end Yielding

namespace Ratio

/-- The ratio in lowest terms of a rational number; that of zero is 0/1. -/
structure Holds (r : Ratio) (q : ℚ) : Prop where
  value : r.value = q
  lowest : r.LowestTerms
  zero : q = 0 → r = zero

theorem LowestTerms.eq_ofRat {r : Ratio} {q : ℚ} (lowest : r.LowestTerms) (value : r.value = q) :
    r = ofRat q := by
  rw [← value, lowest.ofRat_value]

theorem ofRat_holds (q : ℚ) : (ofRat q).Holds q where
  value := value_ofRat q
  lowest := ofRat_lowestTerms q
  zero := by
    rintro rfl
    rfl

theorem Holds.eq {r s : Ratio} {q : ℚ} (hr : r.Holds q) (hs : s.Holds q) : r = s :=
  hr.lowest.eq_of_value_eq hs.lowest (hr.value.trans hs.value.symm)

theorem yields_ofRat (q : ℚ) {impossible possible : Prop} [Decidable impossible]
    (condition : possible ↔ ¬impossible) :
    Yields (if impossible then .error .divisionByZero else .ok (ofRat q)) possible (·.Holds q)
      .divisionByZero :=
  .of_ite condition (ofRat_holds q) fun _ other => other.eq (ofRat_holds q)

section Equations

variable (r s : Ratio)

theorem neg_eq : r.neg = ofRat (-r.value) := (reduce_lowestTerms _).eq_ofRat r.value_neg

theorem abs_eq : r.abs = ofRat |r.value| := (reduce_lowestTerms _).eq_ofRat r.value_abs

theorem add_eq : r.add s = ofRat (r.value + s.value) :=
  (add_lowestTerms r s).eq_ofRat (value_add r s)

theorem sub_eq : r.sub s = ofRat (r.value - s.value) := by
  rw [sub, add_eq, value_neg, sub_eq_add_neg]

theorem value_sub : (r.sub s).value = r.value - s.value := by
  rw [sub_eq, value_ofRat]

theorem mul_eq : r.mul s = ofRat (r.value * s.value) :=
  (mul_lowestTerms r s).eq_ofRat (value_mul r s)

theorem div_eq : r.div s =
    if s.value = 0 then .error .divisionByZero else .ok (ofRat (r.value / s.value)) := by
  split
  · next zero =>
    rw [div, div?, dif_pos (s.value_eq_zero_iff.mp zero)]
    rfl
  · next nonzero =>
    rw [div, div?_of_ne_zero nonzero]
    rfl

theorem inv_eq : r.inv =
    if r.value = 0 then .error .divisionByZero else .ok (ofRat r.value⁻¹) := by
  have quotient := div_eq one r
  rwa [one, value_ofInt, Int.cast_one, one_div] at quotient

theorem pow_eq (n : ℤ) : r.pow n =
    if r.value = 0 ∧ n < 0 then .error .divisionByZero else .ok (ofRat (r.value ^ n)) := by
  split
  · next fails =>
    rw [pow, pow?_of_zero fails.1 fails.2]
    rfl
  · next possible =>
    have nonneg : r.value = 0 → 0 ≤ n := fun zero => not_lt.mp fun negative =>
      possible ⟨zero, negative⟩
    rw [pow, pow?_eq_some nonneg]
    rfl

theorem order_eq : r.order s = compare r.value s.value := by
  -- the parts of a reduced ratio are those of its value
  change compare (r.value.num * (s.value.den : ℤ)) (s.value.num * (r.value.den : ℤ)) = _
  rcases lt_trichotomy r.value s.value with less | same | greater
  · rw [compare_lt_iff_lt.mpr less, compare_lt_iff_lt]
    exact (Rat.lt_iff _ _).mp less
  · rw [same, compare_eq_iff_eq.mpr rfl, compare_eq_iff_eq.mpr rfl]
  · rw [compare_gt_iff_gt.mpr greater, compare_gt_iff_gt]
    exact (Rat.lt_iff _ _).mp greater

theorem isInteger_iff : r.isInteger = true ↔ ∃ n : ℤ, r.value = n := by
  have nonzero := r.den_cast_ne_zero
  rw [isInteger, beq_iff_eq, ← Int.dvd_iff_emod_eq_zero]
  constructor
  · rintro ⟨n, product⟩
    refine ⟨n, ?_⟩
    rw [value_eq, product, Int.cast_mul, mul_div_cancel_left₀ _ nonzero]
  · rintro ⟨n, integral⟩
    refine ⟨n, ?_⟩
    rw [value_eq, div_eq_iff nonzero, mul_comm] at integral
    exact_mod_cast integral

end Equations

section Denominators

variable (r s : Ratio)

/-- Reduction divides both parts by one integer. -/
theorem exists_factor : ∃ g : ℤ, r.num = g * r.reduce.num ∧ r.den = g * r.reduce.den :=
  Rat.num_den_mk r.den_ne_zero rfl

theorem value_over {d : ℤ} (nonzero : d ≠ 0) (multiple : r.den ∣ d) :
    ((r.num * (d / r.den) : ℤ) : ℚ) / d = r.value := by
  obtain ⟨k, rfl⟩ := multiple
  have hk : (k : ℚ) ≠ 0 := Int.cast_ne_zero.mpr (right_ne_zero_of_mul nonzero)
  rw [Int.mul_ediv_cancel_left _ r.den_ne_zero, value_eq, Int.cast_mul, Int.cast_mul,
    mul_div_mul_right _ _ hk]

/-- A sum over any common denominator, such as a shared one or the least. -/
theorem add_over {d : ℤ} (nonzero : d ≠ 0) (left : r.den ∣ d) (right : s.den ∣ d) :
    r.add s = reduce ⟨r.num * (d / r.den) + s.num * (d / s.den), d, nonzero⟩ := by
  have sum := add_div ((r.num * (d / r.den) : ℤ) : ℚ) (s.num * (d / s.den) : ℤ) d
  rw [r.value_over nonzero left, s.value_over nonzero right, ← Int.cast_add] at sum
  rw [add_eq, ← sum, reduce, value_eq]

end Denominators

/-- What the operations give, read as rational numbers. -/
structure Operates (r s : Ratio) : Prop where
  reduce : r.reduce.Holds r.value
  factor : ∃ g : ℤ, r.num = g * r.reduce.num ∧ r.den = g * r.reduce.den
  neg : r.neg.Holds (-r.value)
  abs : r.abs.Holds |r.value|
  add : (r.add s).Holds (r.value + s.value)
  add_over : ∀ (d : ℤ) (nonzero : d ≠ 0), r.den ∣ d → s.den ∣ d →
    r.add s = Ratio.reduce ⟨r.num * (d / r.den) + s.num * (d / s.den), d, nonzero⟩
  sub : (r.sub s).Holds (r.value - s.value)
  mul : (r.mul s).Holds (r.value * s.value)
  div : Yields (r.div s) (s.value ≠ 0) (·.Holds (r.value / s.value)) .divisionByZero
  inv : Yields r.inv (r.value ≠ 0) (·.Holds r.value⁻¹) .divisionByZero
  pow : ∀ n : ℤ, Yields (r.pow n) (r.value ≠ 0 ∨ 0 ≤ n) (·.Holds (r.value ^ n)) .divisionByZero
  pow_zero : r.pow 0 = .ok one

/-- What the tests and comparisons say of the rational numbers. -/
structure Compares (r s : Ratio) : Prop where
  same : r.same s = true ↔ r.value = s.value
  less : r.order s = .lt ↔ r.value < s.value
  equal : r.order s = .eq ↔ r.value = s.value
  greater : r.order s = .gt ↔ r.value > s.value
  isZero : r.isZero = true ↔ r.value = 0
  isNegative : r.isNegative = true ↔ r.value < 0
  isOne : r.isOne = true ↔ r.value = 1
  isInteger : r.isInteger = true ↔ ∃ n : ℤ, r.value = n

/-- Every operation, test and comparison gives for one ratio what it gives for the other. -/
structure Interchangeable (r s : Ratio) : Prop where
  reduce : r.reduce = s.reduce
  neg : r.neg = s.neg
  abs : r.abs = s.abs
  add : ∀ t, r.add t = s.add t ∧ t.add r = t.add s
  sub : ∀ t, r.sub t = s.sub t ∧ t.sub r = t.sub s
  mul : ∀ t, r.mul t = s.mul t ∧ t.mul r = t.mul s
  div : ∀ t, r.div t = s.div t ∧ t.div r = t.div s
  inv : r.inv = s.inv
  pow : ∀ n, r.pow n = s.pow n
  same : ∀ t, r.same t = s.same t ∧ t.same r = t.same s
  order : ∀ t, r.order t = s.order t ∧ t.order r = t.order s
  isZero : r.isZero = s.isZero
  isNegative : r.isNegative = s.isNegative
  isOne : r.isOne = s.isOne
  isInteger : r.isInteger = s.isInteger

theorem operates (r s : Ratio) : r.Operates s where
  reduce := ofRat_holds _
  factor := r.exists_factor
  neg := r.neg_eq ▸ ofRat_holds _
  abs := r.abs_eq ▸ ofRat_holds _
  add := r.add_eq s ▸ ofRat_holds _
  add_over _ nonzero left right := r.add_over s nonzero left right
  sub := r.sub_eq s ▸ ofRat_holds _
  mul := r.mul_eq s ▸ ofRat_holds _
  div := by
    rw [div_eq]
    exact yields_ofRat _ Iff.rfl
  inv := by
    rw [inv_eq]
    exact yields_ofRat _ Iff.rfl
  pow n := by
    have condition : r.value ≠ 0 ∨ 0 ≤ n ↔ ¬(r.value = 0 ∧ n < 0) := by rw [not_and_or, not_lt]
    rw [pow_eq]
    exact yields_ofRat _ condition
  pow_zero := by
    rw [pow_eq, if_neg (fun fails => lt_irrefl _ fails.2), zpow_zero]
    rfl

theorem compares (r s : Ratio) : r.Compares s where
  same := r.same_iff s
  less := by rw [order_eq, compare_lt_iff_lt]
  equal := by rw [order_eq, compare_eq_iff_eq]
  greater := by rw [order_eq, compare_gt_iff_gt]
  isZero := r.isZero_iff
  isNegative := r.isNegative_iff
  isOne := r.isOne_iff
  isInteger := r.isInteger_iff

section Interchange

variable {r s : Ratio}

theorem interchangeable_of_value_eq (same : r.value = s.value) : r.Interchangeable s where
  reduce := congrArg ofRat same
  neg := by rw [neg_eq, neg_eq, same]
  abs := by rw [abs_eq, abs_eq, same]
  add t := by simp only [add_eq, same, and_self]
  sub t := by simp only [sub_eq, same, and_self]
  mul t := by simp only [mul_eq, same, and_self]
  div t := by simp only [div_eq, same, and_self]
  inv := by rw [inv_eq, inv_eq, same]
  pow n := by rw [pow_eq, pow_eq, same]
  same t := ⟨Bool.eq_iff_iff.mpr (by rw [same_iff, same_iff, same]),
    Bool.eq_iff_iff.mpr (by rw [same_iff, same_iff, same])⟩
  order t := by simp only [order_eq, same, and_self]
  isZero := Bool.eq_iff_iff.mpr (by rw [isZero_iff, isZero_iff, same])
  isNegative := Bool.eq_iff_iff.mpr (by rw [isNegative_iff, isNegative_iff, same])
  isOne := Bool.eq_iff_iff.mpr (by rw [isOne_iff, isOne_iff, same])
  isInteger := Bool.eq_iff_iff.mpr (by rw [isInteger_iff, isInteger_iff, same])

/-- Ratios are the same exactly when they can take each other's place. -/
theorem same_iff_interchangeable : r.same s = true ↔ r.Interchangeable s := by
  constructor
  · exact fun same => interchangeable_of_value_eq ((r.same_iff s).mp same)
  · intro interchangeable
    rw [same_iff, ← r.value_reduce, interchangeable.reduce, value_reduce]

end Interchange

/-- Ratios compute with the rational numbers they hold, in lowest terms and with division by zero as
the one failure, and nothing else about a ratio counts. -/
theorem rational_arithmetic (r s : Ratio) :
    r.Operates s ∧ r.Compares s ∧ (r.same s = true ↔ r.Interchangeable s) :=
  ⟨r.operates s, r.compares s, same_iff_interchangeable⟩

/-- Six over minus eight can stand for minus three over four; 1/6 and 1/4 may be added over 12; zero
over minus seven has no inverse. -/
theorem rational_arithmetic_of_unreduced :
    (⟨6, -8, by decide⟩ : Ratio).Interchangeable ⟨-3, 4, by decide⟩ ∧
    (⟨1, 6, by decide⟩ : Ratio).add ⟨1, 4, by decide⟩ = reduce ⟨1 * 2 + 1 * 3, 12, by decide⟩ ∧
    (⟨0, -7, by decide⟩ : Ratio).inv = .error .divisionByZero := by
  obtain ⟨-, -, same⟩ := rational_arithmetic ⟨6, -8, by decide⟩ ⟨-3, 4, by decide⟩
  obtain ⟨sixth, -, -⟩ := rational_arithmetic ⟨1, 6, by decide⟩ ⟨1, 4, by decide⟩
  obtain ⟨nothing, -, -⟩ := rational_arithmetic ⟨0, -7, by decide⟩ ⟨1, 1, by decide⟩
  refine ⟨same.mp (by decide), sixth.add_over 12 (by decide) (by decide) (by decide), ?_⟩
  rw [nothing.inv.error_iff]
  exact ⟨not_not.mpr ((value_eq_zero_iff _).mpr rfl), rfl⟩

end Ratio

end ExactAlgebra
