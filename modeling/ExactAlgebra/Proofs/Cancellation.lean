import ExactAlgebra.Laurent.Arithmetic
import ExactAlgebra.Proofs.Queries

/-!
What queries see of terms that cancel. Some queries look at the terms and the constant as they are
stored, others normalize first. A query on stored terms never misses what is left after
normalization, but it may still see a number or a symbol that has cancelled; the two kinds of query
agree exactly where it does not, and on a normal form there is nothing to cancel.
-/
namespace ExactAlgebra.Laurent

/-- A symbol has a degree other than zero in a stored term, its powers there multiplied out. -/
def StandsIn (e : Laurent) (s : String) : Prop := ∃ m ∈ e.terms, m.exponents s ≠ 0

/-- Numbers other than zero are stored, and all of it adds up to nothing. -/
def Vanishes (e : Laurent) : Prop :=
  e.polynomial = 0 ∧ ¬ (e.constant.value = 0 ∧ ∀ m ∈ e.terms, m.coefficient.value = 0)

/-- The symbol stands in a stored term and is not left. -/
def Loses (e : Laurent) (s : String) : Prop := e.StandsIn s ∧ ¬ e.polynomial.Mentions s

/-- Another symbol stands in a stored term, and none is left. -/
def LosesOthers (e : Laurent) (s : String) : Prop :=
  (∃ t, t ≠ s ∧ e.StandsIn t) ∧ ¬ e.polynomial.MentionsOther s

/-- Queries on stored terms have the answers of those that normalize first. -/
structure QueriesAgree (e : Laurent) : Prop where
  zero : e.isZero = true ↔ e.constantValue? = some .zero
  symbol : ∀ s, e.hasSymbol s = true ↔ s ∈ e.symbols
  only : ∀ s, e.onlyHasSymbol s = true ↔ ∀ t ∈ e.symbols, t = s

/-- What is left after normalization is seen in the stored terms. -/
structure SeesAll (e : Laurent) : Prop where
  zero : e.isZero = true → e.constantValue? = some .zero
  symbol : ∀ s ∈ e.symbols, e.hasSymbol s = true
  only : ∀ s, e.onlyHasSymbol s = true → ∀ t ∈ e.symbols, t = s

/-- Where one query sees something that has cancelled, and only there, its answers differ. -/
structure DiffersByCancelling (e : Laurent) : Prop where
  zero : (e.isZero = true ↔ e.constantValue? = some .zero) ↔ ¬ e.Vanishes
  symbol : ∀ s, (e.hasSymbol s = true ↔ s ∈ e.symbols) ↔ ¬ e.Loses s
  only : ∀ s, (e.onlyHasSymbol s = true ↔ ∀ t ∈ e.symbols, t = s) ↔ ¬ e.LosesOthers s

section Stored

variable (e : Laurent) (s : String)

theorem isZero_iff_stored :
    e.isZero = true ↔ e.constant.value = 0 ∧ ∀ m ∈ e.terms, m.coefficient.value = 0 := by
  simp [isZero]

theorem hasSymbol_iff_standsIn : e.hasSymbol s = true ↔ e.StandsIn s := by
  simp [hasSymbol, StandsIn]

theorem onlyHasSymbol_iff_standsIn :
    e.onlyHasSymbol s = true ↔ ¬ ∃ t, t ≠ s ∧ e.StandsIn t := by
  simp only [onlyHasSymbol, List.all_eq_true, beq_iff_eq,
    (Monomial.signature_inOrder _).mem_symbols_iff, Monomial.exponents_signature, StandsIn]
  constructor
  · rintro only ⟨t, other, m, member, occurs⟩
    exact other (only m member t occurs)
  · intro none m member t occurs
    by_contra other
    exact none ⟨t, other, m, member, occurs⟩

end Stored

section Left

variable (e : Laurent) (s : String)

theorem constantValue?_eq_zero_iff : e.constantValue? = some .zero ↔ e.polynomial = 0 := by
  constructor
  · intro number
    rw [polynomial_of_constantValue? number, Ratio.value_zero, LaurentRing.constant_zero]
  · intro zero
    exact constantValue?_of_constant (zero.trans LaurentRing.constant_zero.symm)

theorem forall_mem_symbols_iff : (∀ t ∈ e.symbols, t = s) ↔ ¬ e.polynomial.MentionsOther s := by
  simp only [mem_symbols_iff, LaurentRing.MentionsOther, not_exists, not_and]
  exact forall_congr' fun t => not_imp_not.symm.trans Iff.rfl

end Left

section Bounds

variable {e : Laurent} {s : String}

/-- A symbol that is left was written down. -/
theorem standsIn_of_mentions (mentions : e.polynomial.Mentions s) : e.StandsIn s := by
  obtain ⟨d, nonconstant, nonzero, occurs⟩ := mentions.exists_nonconstant
  obtain ⟨m, member, rfl⟩ := exists_term nonconstant nonzero
  exact ⟨m, member, occurs⟩

theorem polynomial_of_isZero (zero : e.isZero = true) : e.polynomial = 0 := by
  obtain ⟨constant, terms⟩ := e.isZero_iff_stored.mp zero
  have none : termsPolynomial e.terms = 0 := by
    refine List.sum_eq_zero fun n hn => ?_
    obtain ⟨m, member, rfl⟩ := List.mem_map.mp hn
    exact Monomial.polynomial_of_isZero ((Ratio.isZero_iff _).mpr (terms m member))
  rw [polynomial, none, constant, LaurentRing.constant_zero, add_zero]

theorem seesAll (e : Laurent) : e.SeesAll where
  zero stored := e.constantValue?_eq_zero_iff.mpr (polynomial_of_isZero stored)
  symbol s left := (e.hasSymbol_iff_standsIn s).mpr
    (standsIn_of_mentions ((e.mem_symbols_iff s).mp left))
  only s alone := by
    rw [forall_mem_symbols_iff]
    rintro ⟨t, other, mentions⟩
    exact (e.onlyHasSymbol_iff_standsIn s).mp alone ⟨t, other, standsIn_of_mentions mentions⟩

/-- Of two propositions, one of which implies the other, only the weaker can hold alone. -/
theorem iff_iff_of_imp {P Q : Prop} (implies : P → Q) : (P ↔ Q) ↔ ¬ (Q ∧ ¬ P) := by
  constructor
  · rintro same ⟨hq, hp⟩
    exact hp (same.mpr hq)
  · intro together
    exact ⟨implies, fun hq => by_contra fun hp => together ⟨hq, hp⟩⟩

theorem differsByCancelling (e : Laurent) : e.DiffersByCancelling where
  zero := by
    rw [iff_iff_of_imp e.seesAll.zero, constantValue?_eq_zero_iff, isZero_iff_stored, Vanishes]
  symbol s := by
    rw [iff_comm (a := e.hasSymbol s = true), iff_iff_of_imp (e.seesAll.symbol s),
      hasSymbol_iff_standsIn, mem_symbols_iff, Loses]
  only s := by
    rw [iff_iff_of_imp (e.seesAll.only s), forall_mem_symbols_iff, onlyHasSymbol_iff_standsIn,
      not_not, and_comm, LosesOthers]

/-- A normal form stores nothing that cancels. -/
theorem Normal.queriesAgree (normal : e.Normal) : e.QueriesAgree where
  zero := by rw [normal.isZero_iff, constantValue?_eq_zero_iff]
  symbol s := by
    rw [← normal.normalize_eq, hasSymbol_normalize_iff, mem_symbols_iff, polynomial_normalize]
  only s := by
    rw [← normal.normalize_eq, onlyHasSymbol_normalize_iff, forall_mem_symbols_iff,
      polynomial_normalize]

end Bounds

/-- The difference x - x, not normalized. -/
def selfDifference : Laurent := (symbol "x").subWith false (.symbol "x")

/-- The sum x + y - y, not normalized. -/
def lostOther : Laurent := ((symbol "x").addWith false (.symbol "y")).subWith false (.symbol "y")

end ExactAlgebra.Laurent
