import ExactAlgebra.Proofs.SquareRoots
import ExactAlgebra.Solving.CubicRoots
import ExactAlgebra.Solving.QuadraticRoots

/-!
What the lists of roots can be. The sign of the discriminant decides how many roots are listed; a
root listed as exact comes from a closed form or has been put into the polynomial. No divisor in the
closed forms is zero as long as the leading coefficient is not, so the list is always there,
whatever the functions on doubles and the tolerance are.
-/
namespace ExactAlgebra

namespace Ratio

theorem quotient_of_ne_zero (p : ℚ) {q : ℚ} (nonzero : q ≠ 0) :
    quotient p q = .ok (.ofRat (p / q)) := by
  rw [quotient, div_eq, value_ofRat, value_ofRat, if_neg nonzero]

end Ratio

namespace Quadratic

/-- Lists of roots by the sign of the discriminant. -/
inductive Listed (p : Quadratic) : List Root → Prop
  | none (negative : p.discriminant < 0) : Listed p []
  | double (zero : p.discriminant = 0) : Listed p [.exact (.ofRat (-p.b / (p.a * 2)))]
  | exact (positive : 0 < p.discriminant) {root : ℚ} (square : root * root = p.discriminant) :
    Listed p [.exact (.ofRat ((-p.b - root) / (p.a * 2))),
      .exact (.ofRat ((-p.b + root) / (p.a * 2)))]
  | approximate (positive : 0 < p.discriminant) (x y : Double) :
    Listed p [.approximate x, .approximate y]

/-- The roots with the two signs of a square root of the discriminant, or the one root if it is
zero. -/
def closedForms (p : Quadratic) (w : ℚ) : List ℚ :=
  if w = 0 then [-p.b / (p.a * 2)] else [(-p.b - w) / (p.a * 2), (-p.b + w) / (p.a * 2)]

section Cases

variable {p : Quadratic} (leading : p.a ≠ 0)
include leading

theorem roots_of_square {w : ℚ} (nonneg : 0 ≤ w) (square : w * w = p.discriminant)
    (f : RealFunctions) :
    p.roots f = .ok ((p.closedForms w).map fun x => .exact (.ofRat x)) := by
  have divisor : p.a * 2 ≠ 0 := mul_ne_zero leading two_ne_zero
  have negative : ¬ p.discriminant < 0 := square ▸ (mul_self_nonneg w).not_gt
  have zero : p.discriminant = 0 ↔ w = 0 := by rw [← square, mul_self_eq_zero]
  have found := Ratio.sqrtRat?_eq_some_iff.mpr ⟨nonneg, square⟩
  simp only [roots, if_neg negative, zero, found, Ratio.quotient_of_ne_zero _ divisor, closedForms]
  split <;> rfl

omit leading in
theorem pos_of_irrational (nonneg : 0 ≤ p.discriminant) (irrational : ¬ IsSquare p.discriminant) :
    0 < p.discriminant :=
  lt_of_le_of_ne nonneg fun zero => irrational (zero ▸ IsSquare.zero)

/-- The sign of the discriminant and its square root decide which list is computed. -/
theorem roots_cases (f : RealFunctions) :
    p.discriminant < 0 ∧ p.roots f = .ok [] ∨
      0 < p.discriminant ∧ ¬ IsSquare p.discriminant ∧ p.roots f = .ok (p.approximateRoots f) ∨
      ∃ w, 0 ≤ w ∧ w * w = p.discriminant ∧
        p.roots f = .ok ((p.closedForms w).map fun x => .exact (.ofRat x)) := by
  by_cases negative : p.discriminant < 0
  · exact .inl ⟨negative, if_pos negative⟩
  cases found : Ratio.sqrtRat? p.discriminant with
  | none =>
    have irrational := Ratio.sqrtRat?_eq_none_iff.mp found
    have positive := pos_of_irrational (not_lt.mp negative) irrational
    refine .inr (.inl ⟨positive, irrational, ?_⟩)
    simp only [roots, if_neg negative, if_neg positive.ne', found]
  | some w =>
    obtain ⟨nonneg, square⟩ := Ratio.sqrtRat?_eq_some_iff.mp found
    exact .inr (.inr ⟨w, nonneg, square, roots_of_square leading nonneg square f⟩)

theorem roots_listed (f : RealFunctions) : ∃ list, p.roots f = .ok list ∧ p.Listed list := by
  obtain ⟨negative, solved⟩ | ⟨positive, -, solved⟩ | ⟨w, -, square, solved⟩ :=
    roots_cases leading f
  · exact ⟨_, solved, .none negative⟩
  · exact ⟨_, solved, .approximate positive _ _⟩
  · refine ⟨_, solved, ?_⟩
    by_cases zero : w = 0
    · subst zero
      exact .double (by rw [← square, zero_mul])
    · have positive : 0 < p.discriminant := square ▸ mul_self_pos.mpr zero
      simpa [closedForms, zero] using Listed.exact positive square

end Cases

end Quadratic

namespace Cubic

variable (p : Cubic)

def tripleValue : ℚ := -p.b / (3 * p.a)

def simpleValue : ℚ :=
  (4 * p.a * p.b * p.c - 9 * (p.a * p.a) * p.d - p.b * p.b * p.b) / (p.a * p.tripleTest)

def doubleValue : ℚ := (9 * p.a * p.d - p.b * p.c) / (2 * p.tripleTest)

/-- An exact root is a root. -/
def Trusted (root : Root) : Prop := ∀ r, root = .exact r → ∃ q, p.value q = 0 ∧ r = .ofRat q

/-- Lists of roots by the sign of the discriminant. -/
inductive Listed : List Root → Prop
  | triple (zero : p.discriminant = 0) (triple : p.tripleTest = 0) :
    Listed [.exact (.ofRat p.tripleValue)]
  | double (zero : p.discriminant = 0) (double : p.tripleTest ≠ 0) :
    Listed [.exact (.ofRat p.simpleValue), .exact (.ofRat p.doubleValue)]
  | single (negative : p.discriminant < 0) {x : Root} (first : p.Trusted x) : Listed [x]
  | three (positive : 0 < p.discriminant) {x y z : Root} (first : p.Trusted x)
    (second : p.Trusted y) (third : p.Trusted z) : Listed [x, y, z]

variable {p}

/-- Snapping asks for an exact zero before it answers a fraction. -/
theorem snap_trusted (f : RealFunctions) (tolerance x : Double) :
    p.Trusted (p.snap f tolerance x) := by
  intro r h
  unfold snap at h
  split at h
  · next q _ =>
    split at h
    · next guard =>
      cases h
      simp only [Bool.and_eq_true, beq_iff_eq] at guard
      exact ⟨q, guard.2, rfl⟩
    · contradiction
  · contradiction

section Leading

variable (leading : p.a ≠ 0)
include leading

theorem tripleRoot_eq : p.tripleRoot = .ok (.ofRat p.tripleValue) :=
  Ratio.quotient_of_ne_zero _ (mul_ne_zero three_ne_zero leading)

theorem simpleRoot_eq (double : p.tripleTest ≠ 0) :
    p.simpleRoot = .ok (.ofRat p.simpleValue) :=
  Ratio.quotient_of_ne_zero _ (mul_ne_zero leading double)

omit leading in
theorem doubleRoot_eq (double : p.tripleTest ≠ 0) :
    p.doubleRoot = .ok (.ofRat p.doubleValue) :=
  Ratio.quotient_of_ne_zero _ (mul_ne_zero two_ne_zero double)

theorem depressed_eq : ∃ dp dq ds,
    p.depressedP = .ok dp ∧ p.depressedQ = .ok dq ∧ p.shift = .ok ds := by
  have square : 3 * (p.a * p.a) ≠ 0 := by simpa using leading
  have cube : 27 * (p.a * p.a * p.a) ≠ 0 := by simpa using leading
  exact ⟨_, _, _, Ratio.quotient_of_ne_zero _ square, Ratio.quotient_of_ne_zero _ cube,
    Ratio.quotient_of_ne_zero _ (mul_ne_zero three_ne_zero leading)⟩

theorem approximateRoots_of_neg (f : RealFunctions) (negative : p.discriminant < 0) :
    ∃ x, p.approximateRoots f = .ok [x] := by
  obtain ⟨dp, dq, ds, hp, hq, hs⟩ := depressed_eq leading
  rw [approximateRoots, hp, hq, hs]
  exact ⟨_, if_pos negative⟩

theorem approximateRoots_of_not_neg (f : RealFunctions) (nonneg : ¬ p.discriminant < 0) :
    ∃ x y z, p.approximateRoots f = .ok [x, y, z] := by
  obtain ⟨dp, dq, ds, hp, hq, hs⟩ := depressed_eq leading
  rw [approximateRoots, hp, hq, hs]
  exact ⟨_, _, _, if_neg nonneg⟩

theorem roots_listed (f : RealFunctions) (tolerance : Double) :
    ∃ list, p.roots f tolerance = .ok list ∧ p.Listed list := by
  by_cases zero : p.discriminant = 0
  · by_cases triple : p.tripleTest = 0
    · refine ⟨_, ?_, .triple zero triple⟩
      rw [roots, if_pos zero, if_pos triple, tripleRoot_eq leading]
      rfl
    · refine ⟨_, ?_, .double zero triple⟩
      rw [roots, if_pos zero, if_neg triple, simpleRoot_eq leading triple, doubleRoot_eq triple]
      rfl
  have trusted := snap_trusted (p := p) f tolerance
  by_cases negative : p.discriminant < 0
  · obtain ⟨x, single⟩ := approximateRoots_of_neg leading f negative
    refine ⟨_, ?_, .single negative (trusted x)⟩
    rw [roots, if_neg zero, single]
    rfl
  · have positive : 0 < p.discriminant := lt_of_le_of_ne (not_lt.mp negative) (Ne.symm zero)
    obtain ⟨x, y, z, three⟩ := approximateRoots_of_not_neg leading f negative
    refine ⟨_, ?_, .three positive (trusted x) (trusted y) (trusted z)⟩
    rw [roots, if_neg zero, three]
    rfl

end Leading

end Cubic

end ExactAlgebra
