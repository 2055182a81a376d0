import ExactAlgebra.Proofs.ExactRoots
import ExactAlgebra.Proofs.Outcomes

/-!
Exact roots that are listed twice. The closed forms never repeat a root, and a single double has no
neighbour, so only a cubic with three real roots can repeat one. There each double is snapped by
itself, and a fraction stands twice exactly when two of the doubles are within the tolerance of it
and are rounded to it. The standard tolerance allows that.
-/
namespace ExactAlgebra

open Polynomial LaurentRing

/-- The number of an exact root. -/
def Root.value? (x : Root) : Option ℚ := x.rational?.map Ratio.value

/-- The numbers of the exact roots, in order. -/
def exactValues (list : List Root) : List ℚ := list.filterMap Root.value?

@[simp] theorem exactValues_nil : exactValues [] = [] := rfl

@[simp] theorem exactValues_exact (q : ℚ) (list : List Root) :
    exactValues (.exact (.ofRat q) :: list) = q :: exactValues list := by
  simp [exactValues, Root.value?, Root.rational?]

@[simp] theorem exactValues_approximate (x : Double) (list : List Root) :
    exactValues (.approximate x :: list) = exactValues list := rfl

section ClosedForms

variable {list : List Root}

/-- The two signs of a square root other than zero give two roots. -/
theorem Quadratic.nodup_of_listed {p : Quadratic} (leading : p.a ≠ 0) (listed : p.Listed list) :
    (exactValues list).Nodup := by
  cases listed with
  | none => simp
  | double => simp
  | @exact positive root square =>
    have nonzero : root ≠ 0 := by
      rintro rfl
      simp [← square] at positive
    have apart : (-p.b - root) / (p.a * 2) ≠ (-p.b + root) / (p.a * 2) := by
      intro same
      field_simp at same
      exact nonzero (by linarith)
    simpa using apart
  | approximate => simp

theorem Cubic.nodup_of_factored {p : Cubic} (factored : p.Factored list) :
    (exactValues list).Nodup := by
  cases factored with
  | triple => simp
  | double apart => simpa using apart

theorem Cubic.nodup_of_listed {p : Cubic} (leading : p.a ≠ 0) (listed : p.Listed list)
    (few : ¬ 0 < p.discriminant) : (exactValues list).Nodup := by
  cases listed with
  | triple => simp
  | double zero double => exact nodup_of_factored (factored_of_double leading zero double)
  | @single _ x => cases h : x.value? <;> simp [exactValues, h]
  | three positive => contradiction

end ClosedForms

namespace Cubic

/-- Snapping puts the fraction in the place of the double. -/
def SnapsTo (method : NumericMethod) (p : Cubic) (x : Double) (q : ℚ) : Prop :=
  candidate? method.functions p.leading x = some q ∧
    isFar method.snapTolerance x q = false ∧ p.value q = 0

/-- Snapping puts one fraction in the place of two of the doubles. -/
def Merges (method : NumericMethod) (p : Cubic) : Prop :=
  ∃ doubles x y q, p.approximateRoots method.functions = .ok doubles ∧ [x, y].Sublist doubles ∧
    p.SnapsTo method x q ∧ p.SnapsTo method y q

variable {method : NumericMethod} {p : Cubic} {list : List Root}

theorem snap_of_snapsTo {x : Double} {q : ℚ} (snaps : p.SnapsTo method x q) :
    p.snap method.functions method.snapTolerance x = .exact (.ofRat q) := by
  obtain ⟨candidate, near, zero⟩ := snaps
  simp [snap, candidate, near, zero]

/-- The test of the fraction is that nothing is left of the expression with the fraction put for the
symbol. -/
theorem snapsTo_iff_leavesZero {e : Laurent} {s : String} {x : Double} {q : ℚ}
    (whole : e.polynomial = inSymbol s p.polynomial) :
    p.SnapsTo method x q ↔ candidate? method.functions p.leading x = some q ∧
      isFar method.snapTolerance x q = false ∧ e.normalize.LeavesZero s (.ofRat q) := by
  rw [Laurent.leavesZero_iff_value whole, Ratio.value_ofRat, SnapsTo]

/-- A double that is not snapped is kept. -/
theorem snap_of_not_snapsTo {x : Double} (keeps : ∀ q, ¬ p.SnapsTo method x q) :
    p.snap method.functions method.snapTolerance x = .approximate x := by
  unfold snap
  split
  · next q candidate =>
    refine if_neg fun guard => keeps q ⟨candidate, ?_⟩
    simpa using guard
  · rfl

theorem value?_snap (x : Double) (q : ℚ) :
    (p.snap method.functions method.snapTolerance x).value? = some q ↔ p.SnapsTo method x q := by
  constructor
  · intro snapped
    by_cases snaps : ∃ r, p.SnapsTo method x r
    · obtain ⟨r, snaps⟩ := snaps
      rw [snap_of_snapsTo snaps] at snapped
      obtain rfl : r = q := by simpa [Root.value?, Root.rational?] using snapped
      exact snaps
    · rw [snap_of_not_snapsTo (not_exists.mp snaps)] at snapped
      cases snapped
  · intro snaps
    simp [snap_of_snapsTo snaps, Root.value?, Root.rational?]

theorem merges_iff (positive : 0 < p.discriminant)
    (solved : p.roots method.functions method.snapTolerance = .ok list) :
    p.Merges method ↔ ¬ (exactValues list).Nodup := by
  rw [roots, if_neg positive.ne'] at solved
  cases found : p.approximateRoots method.functions with
  | error f =>
    rw [found] at solved
    cases solved
  | ok doubles =>
    rw [found] at solved
    cases solved
    rw [List.Nodup, exactValues, List.pairwise_filterMap, List.pairwise_map,
      List.pairwise_iff_forall_sublist]
    simp only [value?_snap]
    constructor
    · rintro ⟨_, x, y, q, same, pair, first, second⟩ distinct
      cases found.symm.trans same
      exact distinct pair q first q second rfl
    · intro repeated
      push Not at repeated
      obtain ⟨x, y, pair, q, first, _, second, rfl⟩ := repeated
      exact ⟨doubles, x, y, q, found, pair, first, second⟩

end Cubic

namespace Equation

variable {method : NumericMethod} {q : Equation} {s : String}

theorem roots_of_cubic {p : Cubic} (leading : p.a ≠ 0)
    (whole : q.polynomial = inSymbol s p.polynomial) {list : List Root}
    (solved : q.solveWith method s = .ok (.roots list)) :
    p.roots method.functions method.snapTolerance = .ok list := by
  rw [solveWith_of_cubic method leading whole] at solved
  obtain ⟨roots, found, same⟩ := exists_of_map solved
  cases same
  exact found

/-- An exact root stands twice in the list only for a cubic with three real roots, and then exactly
when snapping puts one fraction in the place of two of its doubles. -/
theorem solveWith_repeats_iff (method : NumericMethod) (q : Equation) (s : String)
    (list : List Root) (solved : q.solveWith method s = .ok (.roots list)) :
    ¬ (exactValues list).Nodup ↔ ∃ p : Cubic, p.a ≠ 0 ∧
      q.polynomial = inSymbol s p.polynomial ∧ 0 < p.discriminant ∧ p.Merges method := by
  cases answered_of_solveWith solved with
  | @quadratic present p leading whole _ listed =>
    refine iff_of_false (not_not.mpr (Quadratic.nodup_of_listed leading listed)) ?_
    rintro ⟨r, cubic, same, -⟩
    have two := Quadratic.natDegree_polynomial leading
    have three := Cubic.natDegree_polynomial cubic
    rw [inSymbol_injective (whole.symm.trans same)] at two
    omega
  | @cubic present p leading whole _ listed =>
    have computed := roots_of_cubic leading whole solved
    constructor
    · intro repeated
      have positive : 0 < p.discriminant := by
        by_contra few
        exact repeated (Cubic.nodup_of_listed leading listed few)
      exact ⟨p, leading, whole, positive, (Cubic.merges_iff positive computed).mpr repeated⟩
    · rintro ⟨r, -, same, positive, merges⟩
      obtain rfl := Cubic.polynomial_injective (inSymbol_injective (whole.symm.trans same))
      exact (Cubic.merges_iff positive computed).mp merges

/-- The equation 1000000x³ + x = 3000000x². Its roots are zero, one close to 1/3000000 and one close
to 3. -/
def closeRoots : Equation where
  left := ⟨[⟨.ofInt 1000000, [⟨"x", 3⟩]⟩, ⟨.one, [⟨"x", 1⟩]⟩], .zero⟩
  right := ⟨[⟨.ofInt 3000000, [⟨"x", 2⟩]⟩], .zero⟩

theorem solveWith_repeats_closeRoots : ∃ p : Cubic, p.a ≠ 0 ∧
    closeRoots.polynomial = inSymbol "x" p.polynomial ∧ 0 < p.discriminant ∧
    p.Merges .standard :=
  (solveWith_repeats_iff .standard closeRoots "x"
    [.exact .zero, .exact .zero, .approximate (.ofBits 0x4007ffffd342c0aa)]
    (by decide +kernel)).mp (by decide +kernel)

/-- With correctly rounded functions and the standard tolerance, zero is listed in the place of the
root beside it. -/
theorem solveFor_repeats_zero : ∃ list, closeRoots.solveFor "x" = .ok (.roots list) ∧
    ¬ (exactValues list).Nodup :=
  ⟨[.exact .zero, .exact .zero, .approximate (.ofBits 0x4007ffffd342c0aa)],
    by decide +kernel, by decide +kernel⟩

end Equation

end ExactAlgebra
