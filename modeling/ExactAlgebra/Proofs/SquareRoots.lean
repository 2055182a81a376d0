import ExactAlgebra.Proofs.Representation

/-!
Square roots of ratios. A number in lowest terms is a square only if both of its parts are, so the
root is looked for part by part; it is found exactly when the ratio, however it is written, is the
square of a rational number.
-/
namespace ExactAlgebra.Ratio

section Numbers

theorem exactSqrt?_eq_some {n root : ℕ} (h : exactSqrt? n = some root) : root * root = n := by
  unfold exactSqrt? at h
  split at h
  · next square =>
    cases h
    exact square
  · contradiction

theorem sqrtRat?_eq_some {q root : ℚ} (h : sqrtRat? q = some root) : root * root = q := by
  unfold sqrtRat? at h
  split at h
  · contradiction
  next nonneg =>
  split at h
  · next n d numerator denominator =>
    cases h
    have num : ((n * n : ℕ) : ℚ) = q.num := by
      rw [exactSqrt?_eq_some numerator, Nat.cast_natAbs, abs_of_nonneg]
      exact Rat.num_nonneg.mpr (not_lt.mp nonneg)
    have den : ((d * d : ℕ) : ℚ) = q.den := by rw [exactSqrt?_eq_some denominator]
    rw [Rat.mkRat_eq_div, div_mul_div_comm, ← Nat.cast_mul, den, Int.cast_natCast, ← Nat.cast_mul,
      num, Rat.num_div_den]
  · contradiction

theorem exactSqrt?_mul_self (n : ℕ) : exactSqrt? (n * n) = some n := by
  simp [exactSqrt?, Nat.sqrt_eq]

theorem sqrtRat?_mul_self {root : ℚ} (nonneg : 0 ≤ root) : sqrtRat? (root * root) = some root := by
  have num : (root.num.natAbs : ℤ) = root.num := Int.natAbs_of_nonneg (Rat.num_nonneg.mpr nonneg)
  have parts : mkRat root.num.natAbs root.den = root := by rw [num, Rat.mkRat_self]
  simp only [sqrtRat?, if_neg (mul_self_nonneg root).not_gt, Rat.mul_self_num, Rat.mul_self_den,
    Int.natAbs_mul, exactSqrt?_mul_self, parts]

/-- A number has a root exactly when it is a square, and then the one that is not negative. -/
theorem sqrtRat?_eq_some_iff {q root : ℚ} :
    sqrtRat? q = some root ↔ 0 ≤ root ∧ root * root = q := by
  constructor
  · intro found
    have square := sqrtRat?_eq_some found
    have again := sqrtRat?_mul_self (abs_nonneg root)
    rw [abs_mul_abs_self, square, found, Option.some.injEq] at again
    exact ⟨abs_eq_self.mp again.symm, square⟩
  · rintro ⟨nonneg, rfl⟩
    exact sqrtRat?_mul_self nonneg

theorem sqrtRat?_eq_none_iff {q : ℚ} : sqrtRat? q = none ↔ ¬ IsSquare q := by
  constructor
  · rintro none ⟨root, rfl⟩
    rw [← abs_mul_abs_self, sqrtRat?_mul_self (abs_nonneg root)] at none
    cases none
  · intro irrational
    cases found : sqrtRat? q with
    | none => rfl
    | some root => exact absurd ⟨root, (sqrtRat?_eq_some found).symm⟩ irrational

end Numbers

/-- The root that is not negative, in lowest terms; its parts are the roots of the parts. -/
structure RootOf (t r : Ratio) : Prop where
  nonneg : 0 ≤ t.value
  lowest : t.LowestTerms
  square : t.mul t = r.reduce
  parts : t.num * t.num = r.reduce.num ∧ t.den * t.den = r.reduce.den

section Ratios

variable (r t : Ratio)

theorem rootOf_iff :
    t.RootOf r ↔ ∃ root : ℚ, (0 ≤ root ∧ root * root = r.value) ∧ ofRat root = t := by
  constructor
  · intro h
    have square := congrArg value h.square
    rw [value_mul, value_reduce] at square
    exact ⟨t.value, ⟨h.nonneg, square⟩, h.lowest.ofRat_value⟩
  · rintro ⟨root, ⟨nonneg, square⟩, rfl⟩
    have reduced : r.reduce = ofRat (root * root) := congrArg ofRat square.symm
    refine ⟨?_, ofRat_lowestTerms root, ?_, ?_⟩
    · rwa [value_ofRat]
    · rw [mul_eq, value_ofRat, reduced]
    · rw [reduced]
      refine ⟨(Rat.mul_self_num root).symm, ?_⟩
      simp only [ofRat, Rat.mul_self_den, Nat.cast_mul]

theorem sqrt?_eq_some_iff : r.sqrt? = some t ↔ t.RootOf r := by
  rw [sqrt?, Option.map_eq_some_iff, rootOf_iff]
  simp only [sqrtRat?_eq_some_iff]

theorem isSome_sqrt?_iff : r.sqrt?.isSome = true ↔ IsSquare r.value := by
  rw [sqrt?, Option.isSome_map, Option.isSome_iff_ne_none, ne_eq, sqrtRat?_eq_none_iff, not_not]

end Ratios

/-- A ratio has a root exactly when it is a square, and then the root is the one in lowest terms
that is not negative. -/
theorem square_root_decides (r : Ratio) :
    (∀ t, r.sqrt? = some t ↔ t.RootOf r) ∧ (r.sqrt?.isSome = true ↔ IsSquare r.value) ∧
    (r.isSquare = true ↔ IsSquare r.value) :=
  ⟨r.sqrt?_eq_some_iff, r.isSome_sqrt?_iff, r.isSome_sqrt?_iff⟩

-- a ratio that is not in lowest terms
example : (⟨18, 8, by decide⟩ : Ratio).sqrt? = some ⟨3, 2, by decide⟩ := by decide +kernel

end ExactAlgebra.Ratio
