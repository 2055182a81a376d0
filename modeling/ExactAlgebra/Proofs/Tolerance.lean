import ExactAlgebra.Proofs.RepeatedRoots

/-!
Solving with two tolerances. The tolerance is asked only after a double has been computed and a
fraction has been found beside it, so the two answers have their roots in the same places. A double
that is out of reach of the smaller tolerance may be snapped with the greater one, to a fraction
that is a root; nothing else changes, and only a cubic without a repeated root has doubles to snap.
-/
namespace ExactAlgebra

open Polynomial LaurentRing

namespace Double

/-- At most as great; never so when something is not a number. -/
def le (x y : Double) : Bool :=
  match x.ordinal?, y.ordinal? with
  | some i, some j => decide (i ≤ j)
  | _, _ => false

theorem lt_of_le_of_lt {x y z : Double} (first : x.le y = true) (second : y.lt z = true) :
    x.lt z = true := by
  unfold le at first
  unfold lt at second ⊢
  cases hx : x.ordinal? <;> cases hy : y.ordinal? <;> cases hz : z.ordinal? <;>
    simp_all only [decide_eq_true_eq, Bool.false_eq_true]
  omega

end Double

/-- With the greater tolerance a root stays as it is, or is put in the place of a double that the
smaller tolerance does not reach. -/
inductive Root.Widened (t₁ t₂ : Double) : Root → Root → Prop
  | same (x : Root) : Widened t₁ t₂ x x
  | snapped {x : Double} {q : ℚ} (far : Cubic.isFar t₁ x q = true)
    (near : Cubic.isFar t₂ x q = false) : Widened t₁ t₂ (.approximate x) (.exact (.ofRat q))

/-- The answers are one, or two lists of roots related place by place. -/
inductive Solution.Widened (t₁ t₂ : Double) :
    Except Failure Solution → Except Failure Solution → Prop
  | same (answer : Except Failure Solution) : Widened t₁ t₂ answer answer
  | roots {xs ys : List Root} (places : List.Forall₂ (Root.Widened t₁ t₂) xs ys) :
    Widened t₁ t₂ (.ok (.roots xs)) (.ok (.roots ys))

namespace Cubic

variable {p : Cubic} {f : RealFunctions} {t₁ t₂ : Double}

/-- What is near for one tolerance is near for a greater one. -/
theorem isFar_of_le (wider : t₁.le t₂ = true) {x : Double} {q : ℚ}
    (near : isFar t₁ x q = false) : isFar t₂ x q = false := by
  by_contra far
  rw [isFar, Double.lt_of_le_of_lt wider (Bool.not_eq_false _ ▸ far)] at near
  cases near

theorem snapsTo_of_le (wider : t₁.le t₂ = true) {x : Double} {q : ℚ}
    (snaps : p.SnapsTo ⟨f, t₁⟩ x q) : p.SnapsTo ⟨f, t₂⟩ x q :=
  ⟨snaps.1, isFar_of_le wider snaps.2.1, snaps.2.2⟩

theorem snap_widened (wider : t₁.le t₂ = true) (x : Double) :
    Root.Widened t₁ t₂ (p.snap f t₁ x) (p.snap f t₂ x) := by
  by_cases reached : ∃ q, p.SnapsTo ⟨f, t₂⟩ x q
  · obtain ⟨q, snaps⟩ := reached
    have second : p.snap f t₂ x = .exact (.ofRat q) := snap_of_snapsTo snaps
    obtain ⟨candidate, near, zero⟩ := snaps
    -- the smaller tolerance is asked about the same fraction
    cases far : isFar t₁ x q with
    | true =>
      have keeps : ∀ r, ¬ p.SnapsTo ⟨f, t₁⟩ x r := by
        rintro r ⟨other, close, -⟩
        obtain rfl : q = r := Option.some.inj (candidate.symm.trans other)
        cases far.symm.trans close
      have first : p.snap f t₁ x = .approximate x := snap_of_not_snapsTo keeps
      rw [first, second]
      exact .snapped far near
    | false =>
      have snaps : p.SnapsTo ⟨f, t₁⟩ x q := ⟨candidate, far, zero⟩
      have first : p.snap f t₁ x = .exact (.ofRat q) := snap_of_snapsTo snaps
      rw [first, second]
      exact .same _
  · have keeps : ∀ q, ¬ p.SnapsTo ⟨f, t₁⟩ x q :=
      fun q snaps => reached ⟨q, snapsTo_of_le wider snaps⟩
    have first : p.snap f t₁ x = .approximate x := snap_of_not_snapsTo keeps
    have second : p.snap f t₂ x = .approximate x := snap_of_not_snapsTo (not_exists.mp reached)
    rw [first, second]
    exact .same _

theorem roots_of_repeated (zero : p.discriminant = 0) :
    p.roots f t₁ = p.roots f t₂ := by
  rw [roots, roots, if_pos zero, if_pos zero]

/-- The doubles are computed without the tolerance, and each is snapped by itself. -/
theorem roots_widened (wider : t₁.le t₂ = true) :
    Solution.Widened t₁ t₂ ((p.roots f t₁).map .roots) ((p.roots f t₂).map .roots) := by
  by_cases zero : p.discriminant = 0
  · rw [roots_of_repeated zero]
    exact .same _
  rw [roots, roots, if_neg zero, if_neg zero]
  cases p.approximateRoots f with
  | error failure => exact .same _
  | ok doubles =>
    apply Solution.Widened.roots
    rw [List.forall₂_map_left_iff, List.forall₂_map_right_iff, List.forall₂_same]
    exact fun x _ => snap_widened wider x

end Cubic

namespace Equation

variable {q : Equation} {s : String} {f : RealFunctions} {t₁ t₂ : Double}

/-- The difference of the sides is a cubic in the symbol. -/
def IsCubic (q : Equation) (s : String) (p : Cubic) : Prop :=
  p.a ≠ 0 ∧ q.polynomial = inSymbol s p.polynomial

theorem exists_cubic_of_shape (shape : q.shape s = .ok .cubic) : ∃ p, q.IsCubic s p := by
  by_cases negative : q.polynomial.HasNegativeDegree s
  · cases (shape_of_negative negative).symm.trans shape
  by_cases linear : q.polynomial.LinearIn s
  · cases (shape_of_linear negative linear).symm.trans shape
  by_cases company : q.polynomial.MentionsOther s
  · cases (shape_of_several negative linear company).symm.trans shape
  obtain ⟨p, whole⟩ := exists_inSymbol company negative
  have high : 1 < p.natDegree := by
    rwa [whole, linearIn_inSymbol_iff, not_le] at linear
  rw [shape_of_inSymbol whole high] at shape
  split at shape
  · cases shape
  split at shape
  · next degree =>
    obtain ⟨r, leading, rfl⟩ := Cubic.exists_polynomial degree
    exact ⟨r, leading, whole⟩
  · cases shape

/-- The tolerance is used for cubics only. -/
theorem solveWith_of_not_cubic (other : ¬ ∃ p, q.IsCubic s p) :
    q.solveWith ⟨f, t₁⟩ s = q.solveWith ⟨f, t₂⟩ s := by
  by_cases present : q.Lacks s
  · rw [solveWith_of_lacks present, solveWith_of_lacks present]
  by_cases symbols : q.polynomial.IsConstant
  · obtain ⟨c, number⟩ := symbols
    rw [solveWith_of_constant present number, solveWith_of_constant present number]
  rw [solveWith_of_shape present symbols, solveWith_of_shape present symbols]
  cases shape : q.shape s with
  | error failure => rfl
  | ok kind =>
    cases kind with
    | linear => rfl
    | quadratic => rfl
    | cubic => exact absurd (exists_cubic_of_shape shape) other

/-- A greater tolerance changes nothing but doubles that it brings within reach of a fraction that
is a root, and these only for a cubic without a repeated root. -/
theorem solveWith_widened (f : RealFunctions) (t₁ t₂ : Double) (wider : t₁.le t₂ = true)
    (q : Equation) (s : String) :
    Solution.Widened t₁ t₂ (q.solveWith ⟨f, t₁⟩ s) (q.solveWith ⟨f, t₂⟩ s) ∧
      ((¬ ∃ p, q.IsCubic s p ∧ p.discriminant ≠ 0) →
        q.solveWith ⟨f, t₁⟩ s = q.solveWith ⟨f, t₂⟩ s) := by
  by_cases cubic : ∃ p, q.IsCubic s p
  · obtain ⟨p, leading, whole⟩ := cubic
    rw [solveWith_of_cubic ⟨f, t₁⟩ leading whole, solveWith_of_cubic ⟨f, t₂⟩ leading whole]
    refine ⟨Cubic.roots_widened wider, fun repeated => ?_⟩
    have zero : p.discriminant = 0 := by
      by_contra nonzero
      exact repeated ⟨p, ⟨leading, whole⟩, nonzero⟩
    exact congrArg _ (Cubic.roots_of_repeated zero)
  · have same : q.solveWith ⟨f, t₁⟩ s = q.solveWith ⟨f, t₂⟩ s := solveWith_of_not_cubic cubic
    exact ⟨same ▸ .same _, fun _ => same⟩

/-- Of three doubles, the millionth snaps two that a tolerance of zero keeps; the repeated root of
x³ = 3x - 2 makes the tolerance irrelevant. -/
theorem solveWith_widened_closeRoots :
    Solution.Widened .zero NumericMethod.standard.snapTolerance
      (.ok (.roots [.approximate (.ofBits 0x3dd2531e00000000),
        .approximate (.ofBits 0x3e965d7a77a00000), .approximate (.ofBits 0x4007ffffd342c0aa)]))
      (.ok (.roots [.exact .zero, .exact .zero, .approximate (.ofBits 0x4007ffffd342c0aa)])) ∧
    touching.solveWith ⟨.rounded, .zero⟩ "x" = touching.solveWith .standard "x" := by
  have wider : Double.zero.le NumericMethod.standard.snapTolerance = true := by decide +kernel
  obtain ⟨close, -⟩ := solveWith_widened .rounded _ _ wider closeRoots "x"
  obtain ⟨-, repeated⟩ := solveWith_widened .rounded _ _ wider touching "x"
  have kept : closeRoots.solveWith ⟨.rounded, .zero⟩ "x" =
      .ok (.roots [.approximate (.ofBits 0x3dd2531e00000000),
        .approximate (.ofBits 0x3e965d7a77a00000), .approximate (.ofBits 0x4007ffffd342c0aa)]) := by
    decide +kernel
  have snapped : closeRoots.solveWith ⟨.rounded, NumericMethod.standard.snapTolerance⟩ "x" =
      .ok (.roots [.exact .zero, .exact .zero, .approximate (.ofBits 0x4007ffffd342c0aa)]) := by
    decide +kernel
  refine ⟨kept ▸ snapped ▸ close, repeated ?_⟩
  rintro ⟨p, ⟨-, whole⟩, nonzero⟩
  have extracted := Laurent.cubic_of_inSymbol (touching.polynomial_difference.trans whole)
  have found : touching.difference.cubic = .ok ⟨1, 0, -3, 2⟩ := by decide +kernel
  cases found.symm.trans extracted
  exact nonzero (by norm_num [Cubic.discriminant])

end Equation

end ExactAlgebra
