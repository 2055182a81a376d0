import ExactAlgebra.Proofs.RepeatedFactors
import ExactAlgebra.Proofs.Substitution

/-!
Exact answers are roots. Numbers and exact roots come from isolation, from the closed forms of a
quadratic, from the factors of a cubic with a repeated root, and from snapping a double. The last is
safe because the fraction is put into the polynomial before it is trusted; nothing is asked of the
functions on doubles or of the tolerance.
-/
namespace ExactAlgebra

open Polynomial LaurentRing

/-- Every exact root in the list is a root of the polynomial, in lowest terms. -/
def ExactIn (p : ℚ[X]) (list : List Root) : Prop :=
  ∀ r, Root.exact r ∈ list → p.eval r.value = 0 ∧ r.LowestTerms

theorem exactIn_ofRat {p : ℚ[X]} {x : ℚ} (root : p.eval x = 0) {r : Ratio}
    (same : Root.exact r = .exact (.ofRat x)) : p.eval r.value = 0 ∧ r.LowestTerms := by
  cases same
  exact ⟨by rwa [Ratio.value_ofRat], Ratio.ofRat_lowestTerms x⟩

namespace Quadratic

variable {p : Quadratic} (leading : p.a ≠ 0)
include leading

theorem exactIn_of_listed {list : List Root} (listed : p.Listed list) :
    ExactIn p.polynomial list := by
  intro r member
  cases listed with
  | none => cases member
  | double zero =>
    have square : 0 * 0 = p.discriminant := by rw [zero, zero_mul]
    have double := (eval_eq_zero_iff_of_square leading square _).mpr (.inr rfl)
    rw [add_zero] at double
    exact exactIn_ofRat double (List.mem_singleton.mp member)
  | exact positive square =>
    have roots := eval_eq_zero_iff_of_square leading square
    rcases List.mem_cons.mp member with first | rest
    · exact exactIn_ofRat ((roots _).mpr (.inl rfl)) first
    · exact exactIn_ofRat ((roots _).mpr (.inr rfl)) (List.mem_singleton.mp rest)
  | approximate => simp at member

end Quadratic

namespace Cubic

theorem exactIn_of_trusted {p : Cubic} {root : Root} (trusted : p.Trusted root) {r : Ratio}
    (same : Root.exact r = root) : p.polynomial.eval r.value = 0 ∧ r.LowestTerms := by
  obtain ⟨q, zero, rfl⟩ := trusted r same.symm
  exact exactIn_ofRat (p.eval_polynomial q ▸ zero) rfl

variable {p : Cubic} {list : List Root}

theorem exactIn_of_factored (factored : p.Factored list) : ExactIn p.polynomial list := by
  intro r member
  cases factored with
  | triple factors => exact exactIn_ofRat (by simp [factors]) (List.mem_singleton.mp member)
  | double _ factors =>
    rcases List.mem_cons.mp member with first | rest
    · exact exactIn_ofRat (by simp [factors]) first
    · exact exactIn_ofRat (by simp [factors]) (List.mem_singleton.mp rest)

theorem exactIn_of_listed (leading : p.a ≠ 0) (listed : p.Listed list) :
    ExactIn p.polynomial list := by
  intro r member
  cases listed with
  | triple zero triple =>
    exact exactIn_of_factored (factored_of_triple leading zero triple) r member
  | double zero double =>
    exact exactIn_of_factored (factored_of_double leading zero double) r member
  | single _ trusted => exact exactIn_of_trusted trusted (List.mem_singleton.mp member)
  | three _ first second third =>
    simp only [List.mem_cons, List.not_mem_nil, or_false] at member
    rcases member with h | h | h
    · exact exactIn_of_trusted first h
    · exact exactIn_of_trusted second h
    · exact exactIn_of_trusted third h

end Cubic

namespace Laurent

variable {e : Laurent} {s : String} {p : Cubic}

/-- What a number leaves of a cubic when it is put for the symbol is the value of the cubic. -/
theorem substitute_cubic (whole : e.polynomial = inSymbol s p.polynomial) (r : Ratio) :
    e.normalize.substitute [(s, .ratio r)] = .ok ⟨[], .ofRat (p.value r.value)⟩ := by
  rw [substitute_inSymbol whole, Cubic.eval_polynomial]

/-- The number zero is left when a number is put for the symbol. -/
def LeavesZero (e : Laurent) (s : String) (r : Ratio) : Prop :=
  ∃ f c, e.substitute [(s, .ratio r)] = .ok f ∧ f.constantValue? = some c ∧ c.isZero = true

theorem leavesZero_iff_value (whole : e.polynomial = inSymbol s p.polynomial) (r : Ratio) :
    e.normalize.LeavesZero s r ↔ p.value r.value = 0 := by
  have left := substitute_cubic whole r
  have number : constantValue? ⟨[], .ofRat (p.value r.value)⟩ = some (.ofRat (p.value r.value)) := by
    apply constantValue?_of_constant
    rw [polynomial, termsPolynomial_nil, zero_add, Ratio.value_ofRat]
  constructor
  · rintro ⟨f, c, answer, constant, zero⟩
    cases left.symm.trans answer
    cases number.symm.trans constant
    rwa [Ratio.isZero_iff, Ratio.value_ofRat] at zero
  · intro zero
    exact ⟨_, _, left, number, by rw [Ratio.isZero_iff, Ratio.value_ofRat, zero]⟩

end Laurent

namespace Equation

variable {q : Equation} {s : String} {p : ℚ[X]}

/-- Nothing is left of the difference with the number put for the symbol, and the number is stored
in lowest terms. -/
def HasRoot (q : Equation) (s : String) (r : Ratio) : Prop :=
  q.difference.substitute [(s, .ratio r)] = .ok .zero ∧ r.LowestTerms

theorem hasRoot_of_eval (whole : q.polynomial = inSymbol s p) {r : Ratio}
    (h : p.eval r.value = 0 ∧ r.LowestTerms) : q.HasRoot s r := by
  refine ⟨?_, h.2⟩
  rw [← normalize_difference,
    Laurent.substitute_inSymbol (q.polynomial_difference.trans whole), h.1]
  rfl

/-- The roots of a cubic equation are those of the cubic, by what putting a number into it leaves. -/
theorem hasRoot_iff_value {p : Cubic} (whole : q.polynomial = inSymbol s p.polynomial) {r : Ratio} :
    q.HasRoot s r ↔ p.value r.value = 0 ∧ r.LowestTerms := by
  have left := Laurent.substitute_cubic (q.polynomial_difference.trans whole) r
  rw [normalize_difference] at left
  rw [HasRoot, left]
  refine and_congr_left fun _ => ⟨fun same => ?_, fun zero => by rw [zero]; rfl⟩
  have values := congrArg Ratio.value (congrArg Laurent.constant (Except.ok.inj same))
  rwa [Ratio.value_ofRat, Laurent.zero, Ratio.value_zero] at values

theorem hasRoot_of_factors {c x : ℚ}
    (factors : q.polynomial = constant c * (symbol s - constant x)) : q.HasRoot s (.ofRat x) := by
  have whole : q.polynomial = inSymbol s (C c * (X - C x)) := by simpa using factors
  refine hasRoot_of_eval whole ⟨?_, Ratio.ofRat_lowestTerms x⟩
  simp

theorem Answered.value_hasRoot {r : Ratio} (h : Answered q s (.ok (.value r))) :
    q.HasRoot s r := by
  cases h with
  | value present nonzero factors => exact hasRoot_of_factors factors

theorem Answered.roots_hasRoot {list : List Root} {r : Ratio}
    (h : Answered q s (.ok (.roots list))) (member : .exact r ∈ list) : q.HasRoot s r := by
  cases h with
  | quadratic present leading whole listed =>
    exact hasRoot_of_eval whole (Quadratic.exactIn_of_listed leading listed r member)
  | cubic present leading whole listed =>
    obtain ⟨zero, lowest⟩ := Cubic.exactIn_of_listed leading listed r member
    exact (hasRoot_iff_value whole).mpr ⟨(Cubic.eval_polynomial _ _).symm.trans zero, lowest⟩

theorem Answered.sides_eq (h : Answered q s (.ok .anything)) :
    q.left.polynomial = q.right.polynomial := by
  cases h with
  | identity present zero => exact sub_eq_zero.mp zero

/-- Exact answers hold exactly, whatever the functions on doubles and the tolerance are. -/
theorem solveWith_exact (method : NumericMethod) (q : Equation) (s : String) :
    (∀ r, q.solveWith method s = .ok (.value r) → q.HasRoot s r) ∧
      (∀ list r, q.solveWith method s = .ok (.roots list) → .exact r ∈ list → q.HasRoot s r) ∧
      (q.solveWith method s = .ok .anything → q.left.polynomial = q.right.polynomial) := by
  refine ⟨?_, ?_, ?_⟩
  · intro r solved
    exact (answered_of_solveWith solved).value_hasRoot
  · intro list r solved member
    exact (answered_of_solveWith solved).roots_hasRoot member
  · intro solved
    exact (answered_of_solveWith solved).sides_eq

/-- The root 2 of x + 1 = 3 and of x³ = 8, and x + x = 2x, which holds for anything. -/
theorem solveWith_exact_at_two :
    (⟨⟨[⟨.one, [⟨"x", 1⟩]⟩], .one⟩, .const (.ofInt 3)⟩ : Equation).HasRoot "x" (.ofInt 2) ∧
      (⟨⟨[⟨.one, [⟨"x", 3⟩]⟩], .zero⟩, .const (.ofInt 8)⟩ : Equation).HasRoot "x" (.ofInt 2) ∧
      (⟨[⟨.one, [⟨"x", 1⟩]⟩, ⟨.one, [⟨"x", 1⟩]⟩], .zero⟩ : Laurent).polynomial =
        (⟨[⟨.ofInt 2, [⟨"x", 1⟩]⟩], .zero⟩ : Laurent).polynomial :=
  ⟨(solveWith_exact .standard _ _).1 _ (by decide +kernel),
    (solveWith_exact .standard _ _).2.1 [.exact (.ofInt 2)] _ (by decide +kernel) (by decide),
    (solveWith_exact .standard ⟨_, _⟩ "x").2.2 (by decide +kernel)⟩

end Equation

end ExactAlgebra
