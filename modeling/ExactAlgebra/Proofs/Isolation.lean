import ExactAlgebra.Proofs.Arithmetic
import ExactAlgebra.Solving.Isolation

/-!
Isolation of a symbol. The polynomial of an expression is its lead, a number times the symbol by
itself, and the terms beside it. With a lead other than zero the answer is minus the rest over the
lead, a number exactly when the rest is one; without a lead the rest decides.
-/
namespace ExactAlgebra

open LaurentRing

namespace Laurent

variable {e : Laurent} {s : String} {r : Ratio}

section Sums

theorem polynomial_addTerms (terms : List Monomial) (sum : Laurent) :
    (terms.foldl (fun sum m => sum.add (ofMonomial m)) sum).polynomial =
      sum.polynomial + termsPolynomial terms := by
  induction terms generalizing sum with
  | nil => rw [List.foldl_nil, termsPolynomial_nil, add_zero]
  | cons m rest ih =>
    rw [List.foldl_cons, ih, polynomial_add, polynomial_ofMonomial, termsPolynomial_cons,
      add_assoc]

theorem polynomial_subTerms (terms : List Monomial) (sum : Laurent) :
    (terms.foldl (fun sum m => sum.sub (ofMonomial m)) sum).polynomial =
      sum.polynomial - termsPolynomial terms := by
  induction terms generalizing sum with
  | nil => rw [List.foldl_nil, termsPolynomial_nil, sub_zero]
  | cons m rest ih =>
    rw [List.foldl_cons, ih, polynomial_sub, polynomial_ofMonomial, termsPolynomial_cons,
      sub_sub]

theorem normal_addTerms (terms : List Monomial) {sum : Laurent} (normal : sum.Normal) :
    (terms.foldl (fun sum m => sum.add (ofMonomial m)) sum).Normal := by
  induction terms generalizing sum with
  | nil => exact normal
  | cons m rest ih => exact ih (normalize_normal _)

end Sums

section Parts

/-- The number that the symbol by itself is multiplied by. -/
noncomputable def lead (e : Laurent) (s : String) : ℚ := e.polynomial.coeff (Finsupp.single s 1)

noncomputable def rest (e : Laurent) (s : String) : LaurentRing :=
  e.polynomial.erase (Finsupp.single s 1)

theorem polynomial_eq_lead_add_rest (e : Laurent) (s : String) :
    e.polynomial = .constant (e.lead s) * .symbol s + e.rest s := by
  rw [lead, constant_mul_symbol, rest, AddMonoidAlgebra.single_add_erase]

/-- Where the symbol is linear, nothing beside it mentions it. -/
theorem not_mentions_rest (linear : e.polynomial.LinearIn s) : ¬ (e.rest s).Mentions s := by
  rw [not_mentions_iff]
  intro d hd
  rw [rest, AddMonoidAlgebra.coeff_erase, Finsupp.erase_apply] at hd
  split at hd
  · exact (hd rfl).elim
  · next hne => exact (linearIn_iff.mp linear d hd).resolve_right hne

theorem isMultipleOf_iff (s : String) (m : Monomial) :
    isMultipleOf s m = true ↔ m.exponents = Finsupp.single s 1 := by
  rw [isMultipleOf, Monomial.alike_iff, Monomial.exponents_ofPower]

theorem erase_add (d : Exponents) (n k : LaurentRing) :
    (n + k).erase d = n.erase d + k.erase d :=
  AddMonoidAlgebra.ext (Finsupp.erase_add d n.coeff k.coeff)

theorem erase_single_ne {d f : Exponents} (c : ℚ) (different : d ≠ f) :
    AddMonoidAlgebra.erase f (.single d c : LaurentRing) = .single d c :=
  AddMonoidAlgebra.ext (Finsupp.erase_single_ne different.symm)

theorem erase_constant (c : ℚ) :
    AddMonoidAlgebra.erase (Finsupp.single s 1) (LaurentRing.constant c) = LaurentRing.constant c :=
  erase_single_ne c fun h => one_ne_zero (Finsupp.single_eq_zero.mp h.symm)

theorem termsPolynomial_others (terms : List Monomial) (s : String) :
    termsPolynomial (terms.filter (!isMultipleOf s ·)) =
      (termsPolynomial terms).erase (Finsupp.single s 1) := by
  induction terms with
  | nil => simp
  | cons m rest ih =>
    rw [List.filter_cons, termsPolynomial_cons, erase_add, ← ih, Monomial.polynomial]
    cases h : isMultipleOf s m with
    | true =>
      rw [(isMultipleOf_iff s m).mp h, AddMonoidAlgebra.erase_single, zero_add]
      rfl
    | false =>
      have other : m.exponents ≠ Finsupp.single s 1 := fun same => by
        rw [(isMultipleOf_iff s m).mpr same] at h
        cases h
      rw [erase_single_ne _ other, Bool.not_false, if_pos rfl, termsPolynomial_cons,
        Monomial.polynomial]

theorem polynomial_remainder (e : Laurent) (s : String) :
    (e.remainder s).polynomial = -e.rest s := by
  rw [remainder, polynomial_subTerms, polynomial_const, Ratio.value_neg, constant_neg,
    termsPolynomial_others, rest, polynomial, erase_add, erase_constant, neg_add_rev,
    sub_eq_add_neg]

theorem polynomial_isolated (e : Laurent) (s : String) :
    (e.isolated s).polynomial = .constant (e.lead s) * .symbol s := by
  have both := termsPolynomial_perm (List.filter_append_perm (isMultipleOf s) e.terms)
  rw [termsPolynomial_append, termsPolynomial_others] at both
  have parts := e.polynomial_eq_lead_add_rest s
  rw [rest, polynomial, erase_add, erase_constant, ← add_assoc] at parts
  rw [isolated, polynomial_addTerms, polynomial_zero, zero_add]
  exact add_right_cancel (both.trans (add_right_cancel parts))

theorem isolated_normal (e : Laurent) (s : String) : (e.isolated s).Normal :=
  normal_addTerms _ zero_normal

theorem coefficient_of_mem_isolated {m : Monomial} (member : m ∈ (e.isolated s).terms) :
    e.lead s ≠ 0 ∧ m.coefficient.value = e.lead s := by
  have value := (e.isolated_normal s).coeff_of_mem member
  obtain ⟨_, _, nonzero⟩ := (e.isolated_normal s).terms m member
  rw [polynomial_isolated, constant_mul_symbol, AddMonoidAlgebra.coeff_single,
    Finsupp.single_apply] at value
  split at value
  · exact ⟨value ▸ nonzero, value.symm⟩
  · exact absurd value.symm nonzero

theorem head_isolated_of_zero (cancelled : e.lead s = 0) :
    (e.isolated s).terms.head? = none := by
  rw [List.head?_eq_none_iff, List.eq_nil_iff_forall_not_mem]
  exact fun m member => (coefficient_of_mem_isolated member).1 cancelled

theorem head_isolated (nonzero : e.lead s ≠ 0) :
    ∃ m, (e.isolated s).terms.head? = some m ∧ m.coefficient.value = e.lead s := by
  have counts : (e.isolated s).polynomial.coeff (Finsupp.single s 1) ≠ 0 := by
    rwa [polynomial_isolated, constant_mul_symbol, AddMonoidAlgebra.coeff_single,
      Finsupp.single_eq_same]
  obtain ⟨n, hn, _⟩ := exists_term (fun h => one_ne_zero (Finsupp.single_eq_zero.mp h)) counts
  cases h : (e.isolated s).terms with
  | nil =>
    rw [h] at hn
    cases hn
  | cons m rest =>
    refine ⟨m, rfl, (coefficient_of_mem_isolated ?_).2⟩
    rw [h]
    exact List.mem_cons_self

end Parts

section Answers

theorem isolate_of_lead_ne_zero (nonzero : e.lead s ≠ 0) :
    ∃ f : Laurent, f.polynomial = -e.rest s * .constant (e.lead s)⁻¹ ∧
      e.isolate s = .ok (f.constantValue?.elim (.expression f.normalize) (.value ·.reduce)) := by
  obtain ⟨m, first, coefficient⟩ := head_isolated nonzero
  have divisor : m.coefficient.reduce.value ≠ 0 := by
    rwa [Ratio.value_reduce, coefficient]
  obtain ⟨f, divided, quotient⟩ :=
    divWith_of_ne_zero true (e := e.remainder s) (o := .ratio m.coefficient) rfl divisor
  refine ⟨f, ?_, ?_⟩
  · rw [quotient, polynomial_remainder, Ratio.value_reduce, coefficient]
  · have value : f.normalize.constantValue? = f.constantValue? := by
      rw [constantValue?, normalize_normalize, constantValue?]
    rw [isolate, first]
    dsimp only
    rw [divided, finish_true]
    dsimp only [Except.map]
    rw [value]
    cases f.constantValue? with
    | none => rfl
    | some r => rfl

theorem isolate_value (nonzero : e.lead s ≠ 0) {c : ℚ} (number : e.rest s = .constant c) :
    e.isolate s = .ok (.value (.ofRat (-c * (e.lead s)⁻¹))) := by
  obtain ⟨f, quotient, answer⟩ := isolate_of_lead_ne_zero nonzero
  rw [number, ← constant_neg, ← constant_mul] at quotient
  rw [answer, constantValue?_of_constant quotient, Option.elim_some, Ratio.reduce_ofRat]

theorem isolate_expression (nonzero : e.lead s ≠ 0) (symbols : ¬ (e.rest s).IsConstant) :
    ∃ f : Laurent, e.isolate s = .ok (.expression f.normalize) ∧ ¬ f.polynomial.IsConstant ∧
      f.polynomial = -e.rest s * .constant (e.lead s)⁻¹ := by
  obtain ⟨f, quotient, answer⟩ := isolate_of_lead_ne_zero nonzero
  have back : e.rest s = -f.polynomial * .constant (e.lead s) := by
    rw [quotient, neg_mul, mul_assoc, ← constant_mul, inv_mul_cancel₀ nonzero, constant_one,
      mul_one, neg_neg]
  have nonconstant : ¬ f.polynomial.IsConstant := fun h =>
    symbols (back ▸ h.neg.mul_constant _)
  refine ⟨f, ?_, nonconstant, quotient⟩
  rw [answer, constantValue?_of_not_constant nonconstant]
  rfl

theorem isolate_cancelled (cancelled : e.lead s = 0) (symbols : ¬ (e.rest s).IsConstant) :
    e.isolate s = .error (.symbolCancels s (e.remainder s)) := by
  have nonconstant : ¬ (e.remainder s).polynomial.IsConstant := by
    rw [polynomial_remainder]
    exact fun h => symbols (neg_neg (e.rest s) ▸ h.neg)
  rw [isolate, head_isolated_of_zero cancelled]
  dsimp only
  rw [constantValue?_of_not_constant nonconstant]

end Answers

end Laurent

end ExactAlgebra
