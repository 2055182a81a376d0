import ExactAlgebra.Proofs.Evaluation

/-!
Operands beside the expressions they stand for. The number behind an operand of any kind is the one
behind its expression, except for a monomial that has a symbol left under a coefficient of zero: it
stands for zero and is not taken for a number. Every other operand divides as its expression does
and may be exchanged for it in bindings.
-/
namespace ExactAlgebra

open LaurentRing

namespace LaurentRing

theorem single_not_isConstant {d : Exponents} {c : ℚ} (nonconstant : d ≠ 0) (nonzero : c ≠ 0) :
    ¬ IsConstant (.single d c) := by
  intro constant
  refine nonconstant (isConstant_iff.mp constant d ?_)
  rwa [AddMonoidAlgebra.coeff_single, Finsupp.single_eq_same]

end LaurentRing

namespace Operand

/-- A monomial that stands for zero and has a symbol left. -/
def IsVanishing : Operand → Prop
  | monomial m => m.coefficient.value = 0 ∧ m.exponents ≠ 0
  | _ => False

section Scalars

variable {o : Operand}

theorem IsVanishing.scalar? (h : o.IsVanishing) : o.scalar? = none := by
  cases o with
  | monomial m =>
    have symbols : ¬ m.isConstant = true := fun constant => h.2 ((m.isConstant_iff).mp constant)
    simp only [Operand.scalar?, if_neg symbols]
  | _ => cases h

theorem IsVanishing.polynomial (h : o.IsVanishing) : o.polynomial = 0 := by
  cases o with
  | monomial m => exact Monomial.polynomial_of_isZero ((Ratio.isZero_iff _).mpr h.1)
  | _ => cases h

theorem IsVanishing.toLaurent (h : o.IsVanishing) : o.toLaurent = .zero := by
  cases o with
  | monomial m =>
    apply (Laurent.normalize_normal _).eq_of_polynomial_eq Laurent.zero_normal
    rw [Laurent.polynomial_zero, ← h.polynomial, ← polynomial_toLaurent]
    rfl
  | _ => cases h

theorem constantValue?_toLaurent {c : ℚ} (h : o.polynomial = .constant c) :
    o.toLaurent.constantValue? = some (.ofRat c) :=
  Laurent.constantValue?_of_constant (o.polynomial_toLaurent.trans h)

theorem constantValue?_toLaurent_of_not_constant (h : ¬ o.polynomial.IsConstant) :
    o.toLaurent.constantValue? = none := by
  rw [← o.polynomial_toLaurent] at h
  exact Laurent.constantValue?_of_not_constant h

/-- Each kind finds the number that its expression has. -/
theorem scalar?_eq (ordinary : ¬ o.IsVanishing) : o.scalar? = o.toLaurent.constantValue? := by
  cases o with
  | symbol name =>
    have open' : ¬ (symbol name).polynomial.IsConstant :=
      single_not_isConstant (by simp) one_ne_zero
    rw [constantValue?_toLaurent_of_not_constant open', scalar?]
  | integer n =>
    rw [constantValue?_toLaurent (o := integer n) rfl]
    rfl
  | ratio r => exact (constantValue?_toLaurent (o := ratio r) rfl).symm
  | monomial m =>
    rw [scalar?]
    split
    · next constant =>
      exact (constantValue?_toLaurent (o := monomial m)
        (Monomial.polynomial_of_isConstant constant)).symm
    · next symbols =>
      have nonconstant : m.exponents ≠ 0 := fun zero => symbols ((m.isConstant_iff).mpr zero)
      have nonzero : m.coefficient.value ≠ 0 := fun zero => ordinary ⟨zero, nonconstant⟩
      exact (constantValue?_toLaurent_of_not_constant (o := monomial m)
        (single_not_isConstant nonconstant nonzero)).symm
  | laurent e => rfl

theorem scalar?_eq_iff (o : Operand) :
    o.scalar? = o.toLaurent.constantValue? ↔ ¬ o.IsVanishing := by
  constructor
  · intro same vanishing
    rw [vanishing.scalar?, constantValue?_toLaurent (vanishing.polynomial.trans constant_zero.symm)]
      at same
    cases same
  · exact scalar?_eq

end Scalars

end Operand

namespace Laurent

section Division

variable {o : Operand} (tidy : Bool) (e : Laurent)

theorem divWith_toLaurent (ordinary : ¬ o.IsVanishing) :
    e.divWith tidy (.laurent o.toLaurent) = e.divWith tidy o := by
  rw [divWith, divWith, Operand.scalar?_eq ordinary]
  rfl

/-- Zero divides nothing, nor does anything with a symbol; every other number divides. -/
theorem divWith_outcome (ordinary : ¬ o.IsVanishing) :
    (o.polynomial = 0 ∧ e.divWith tidy o = .error .divisionByZero) ∨
    (¬ o.polynomial.IsConstant ∧ e.divWith tidy o = .error (.divisorNotConstant o.toLaurent)) ∨
    (o.polynomial ≠ 0 ∧ o.polynomial.IsConstant ∧ ∃ f, e.divWith tidy o = .ok f) := by
  by_cases number : o.polynomial.IsConstant
  · obtain ⟨c, hc⟩ := number
    have scalar : o.scalar? = some (.ofRat c) :=
      (Operand.scalar?_eq ordinary).trans (Operand.constantValue?_toLaurent hc)
    by_cases zero : c = 0
    · refine .inl ⟨by rw [hc, zero, constant_zero], divWith_of_zero tidy scalar ?_⟩
      rw [Ratio.value_ofRat, zero]
    · have value : (Ratio.ofRat c).value ≠ 0 := by rwa [Ratio.value_ofRat]
      obtain ⟨f, answer, -⟩ := divWith_of_ne_zero tidy (e := e) scalar value
      have nonzero : o.polynomial ≠ 0 := fun h =>
        zero (constant_injective (hc.symm.trans (h.trans constant_zero.symm)))
      exact .inr (.inr ⟨nonzero, ⟨c, hc⟩, _, answer⟩)
  · refine .inr (.inl ⟨number, divWith_of_none tidy ?_⟩)
    rw [Operand.scalar?_eq ordinary, Operand.constantValue?_toLaurent_of_not_constant number]

theorem divWith_divisionByZero_iff (ordinary : ¬ o.IsVanishing) :
    (∃ failure, e.divWith tidy o = .error failure ∧ failure.kind = .divisionByZero) ↔
      o.polynomial = 0 := by
  rcases divWith_outcome tidy e ordinary with ⟨zero, answer⟩ | ⟨symbols, answer⟩ |
    ⟨nonzero, -, f, answer⟩
  · simp [answer, zero, Failure.kind]
  · have nonzero : o.polynomial ≠ 0 := fun zero => symbols ⟨0, zero.trans constant_zero.symm⟩
    simp [answer, nonzero, Failure.kind]
  · simp [answer, nonzero]

theorem divWith_invalidArgument_iff (ordinary : ¬ o.IsVanishing) :
    (∃ failure, e.divWith tidy o = .error failure ∧ failure.kind = .invalidArgument) ↔
      ¬ o.polynomial.IsConstant := by
  rcases divWith_outcome tidy e ordinary with ⟨zero, answer⟩ | ⟨symbols, answer⟩ |
    ⟨-, number, f, answer⟩
  · have number : o.polynomial.IsConstant := ⟨0, zero.trans constant_zero.symm⟩
    simp [answer, number, Failure.kind]
  · simp [answer, symbols, Failure.kind]
  · simp [answer, number]

theorem divWith_of_isVanishing (h : o.IsVanishing) :
    e.divWith tidy o = .error (.divisorNotConstant .zero) ∧
      e.divWith tidy (.laurent o.toLaurent) = .error .divisionByZero := by
  constructor
  · rw [divWith_of_none tidy h.scalar?, h.toLaurent]
  · exact divWith_of_zero tidy
      (Operand.constantValue?_toLaurent (h.polynomial.trans constant_zero.symm))
      (Ratio.value_ofRat 0)

end Division

end Laurent

section Substitution

/-- The same bindings with an expression for what is bound to one symbol. -/
def Bindings.asExpression (s : String) (b : Bindings) : Bindings :=
  b.map fun entry => (entry.1, if entry.1 = s then .laurent entry.2.toLaurent else entry.2)

variable {b c : Bindings} {s : String} {o : Operand}

theorem Bindings.lookup_asExpression (s t : String) (b : Bindings) :
    (b.asExpression s).lookup t =
      (b.lookup t).map fun o => if t = s then .laurent o.toLaurent else o := by
  induction b with
  | nil => rfl
  | cons entry rest ih =>
    obtain ⟨u, o⟩ := entry
    simp only [asExpression, List.map_cons, List.lookup_cons] at ih ⊢
    split
    · next same => rw [beq_iff_eq.mp same, Option.map_some]
    · exact ih

theorem Power.substitute_asExpression_of_ne {p : Power} (other : p.symbol ≠ s) :
    p.substitute (b.asExpression s) = p.substitute b := by
  unfold Power.substitute
  rw [Bindings.lookup_asExpression]
  cases b.lookup p.symbol with
  | none => rfl
  | some o => simp only [Option.map_some, if_neg other]

theorem Power.substitute_asExpression {p : Power} (bound : b.lookup p.symbol = some o)
    (ordinary : ¬ o.IsVanishing) : p.substitute (b.asExpression p.symbol) = p.substitute b := by
  have scalar := Operand.scalar?_eq ordinary
  simp only [Power.substitute, Bindings.lookup_asExpression, bound, Option.map_some, if_true,
    scalar]
  rfl

theorem Power.substitute_normal {p : Power} {f : Laurent} (answer : p.substitute b = .ok f) :
    f.Normal := by
  unfold Power.substitute at answer
  split at answer
  · cases answer
    exact Laurent.normalize_normal _
  · split at answer
    · next r _ =>
      cases power : r.pow? p.degree with
      | none =>
        rw [power] at answer
        cases answer
      | some q =>
        rw [power] at answer
        cases answer
        exact Laurent.const_normal q
    · split at answer
      · exact Laurent.powWith_normal answer
      · cases answer

/-- Under the exponents that an expression may have, a vanishing monomial gives what zero gives. -/
theorem Power.substitute_asExpression_of_isVanishing {p : Power} (vanishing : o.IsVanishing)
    (bound : b.lookup p.symbol = some o) (natural : 0 ≤ p.degree ∧ p.degree ≤ 64) :
    p.substitute (b.asExpression p.symbol) = p.substitute b := by
  have scalar : (Operand.laurent o.toLaurent).scalar? = some (.ofRat 0) :=
    Operand.constantValue?_toLaurent (vanishing.polynomial.trans constant_zero.symm)
  have exchanged : (b.asExpression p.symbol).lookup p.symbol = some (.laurent o.toLaurent) := by
    rw [Bindings.lookup_asExpression, bound, Option.map_some, if_pos rfl]
  have computes := p.substitute_computes b
  have again := p.substitute_computes (b.asExpression p.symbol)
  have allowed : p.obstacle? b = none := by
    simp only [Power.obstacle?, bound, vanishing.scalar?]
    exact if_neg (by omega)
  have allowed' : p.obstacle? (b.asExpression p.symbol) = none := by
    simp only [Power.obstacle?, exchanged, scalar]
    exact if_neg (by omega)
  -- one side raises the number zero, the other multiplies the zero expression out
  have image : (b.asExpression p.symbol).image p.symbol p.degree = b.image p.symbol p.degree := by
    simp only [Bindings.image, exchanged, bound, scalar, vanishing.scalar?, vanishing.polynomial,
      Ratio.value_ofRat]
    obtain ⟨k, hk⟩ := Int.eq_ofNat_of_zero_le natural.1
    rw [hk, Int.toNat_natCast, zpow_natCast]
    cases k with
    | zero => simp [constant_one]
    | succ k => simp
  rw [allowed] at computes
  rw [allowed', image] at again
  obtain ⟨f, answer, value⟩ := computes.exists_value
  obtain ⟨g, answer', value'⟩ := again.exists_value
  rw [answer, answer', Except.ok.injEq]
  exact (substitute_normal answer').eq_of_polynomial_eq (substitute_normal answer)
    (value'.trans value.symm)

theorem foldlM_congr {α : Type} {step other : Laurent → α → Except Failure Laurent}
    {list : List α} (same : ∀ a ∈ list, ∀ e, step e a = other e a) (e : Laurent) :
    list.foldlM step e = list.foldlM other e := by
  induction list generalizing e with
  | nil => rfl
  | cons a rest ih =>
    obtain ⟨first, others⟩ := List.forall_mem_cons.mp same
    rw [List.foldlM_cons, List.foldlM_cons, first]
    exact bind_congr (ih others)

/-- Substitution looks at what is put for the powers that are left in each term, at nothing else. -/
theorem Laurent.substituteWith_congr {e : Laurent} (tidy : Bool)
    (same : ∀ m ∈ e.terms, ∀ p ∈ m.normalize.powers, p.substitute b = p.substitute c) :
    e.substituteWith tidy b = e.substituteWith tidy c := by
  have term : ∀ m ∈ e.terms, m.substitute b = m.substitute c := by
    intro m hm
    exact foldlM_congr (fun p hp f => by rw [same m hm p hp]) _
  have step : ∀ m ∈ e.terms, ∀ f, addSubstituted tidy b f m = addSubstituted tidy c f m := by
    intro m hm f
    rw [addSubstituted, addSubstituted, term m hm]
  rw [substituteWith, substituteWith, foldlM_congr step]

theorem Laurent.substituteWith_asExpression {e : Laurent} (tidy : Bool)
    (bound : b.lookup s = some o)
    (allowed : o.IsVanishing → ∀ m ∈ e.terms, 0 ≤ m.degreeOf s ∧ m.degreeOf s ≤ 64) :
    e.substituteWith tidy (b.asExpression s) = e.substituteWith tidy b := by
  apply substituteWith_congr
  intro m hm p hp
  by_cases same : p.symbol = s
  · subst same
    by_cases vanishing : o.IsVanishing
    · have degree : m.degreeOf p.symbol = p.degree := by
        rw [Monomial.degreeOf_eq, ← Monomial.exponents_normalize]
        exact ((m.normal_normalize.mem_powers_iff p).mp hp).1
      have natural := allowed vanishing m hm
      rw [degree] at natural
      exact Power.substitute_asExpression_of_isVanishing vanishing bound natural
    · exact Power.substitute_asExpression bound vanishing
  · exact Power.substitute_asExpression_of_ne same

end Substitution

namespace Operand

/-- Nothing tells the operand from its expression: it fails to divide for what it stands for, and
may be exchanged for its expression in a division and in bindings. -/
structure LikeExpression (o : Operand) : Prop where
  div : ∀ tidy (e : Laurent), e.divWith tidy (.laurent o.toLaurent) = e.divWith tidy o
  divisionByZero : ∀ tidy (e : Laurent),
    (∃ failure, e.divWith tidy o = .error failure ∧ failure.kind = .divisionByZero) ↔
      o.polynomial = 0
  invalidArgument : ∀ tidy (e : Laurent),
    (∃ failure, e.divWith tidy o = .error failure ∧ failure.kind = .invalidArgument) ↔
      ¬ o.polynomial.IsConstant
  substitute : ∀ tidy (e : Laurent) (b : Bindings) s, b.lookup s = some o →
    e.substituteWith tidy (b.asExpression s) = e.substituteWith tidy b

/-- The operand stands for zero and is refused as a divisor that is not constant. In bindings it
passes for zero where no degree rules an expression out. -/
structure UnlikeExpression (o : Operand) : Prop where
  zero : o.polynomial = 0
  div : ∀ tidy (e : Laurent), e.divWith tidy o = .error (.divisorNotConstant .zero) ∧
    e.divWith tidy (.laurent o.toLaurent) = .error .divisionByZero
  substitute : ∀ tidy (e : Laurent) (b : Bindings) s, b.lookup s = some o →
    (∀ m ∈ e.terms, 0 ≤ m.degreeOf s ∧ m.degreeOf s ≤ 64) →
    e.substituteWith tidy (b.asExpression s) = e.substituteWith tidy b

variable {o : Operand}

theorem likeExpression (ordinary : ¬ o.IsVanishing) : o.LikeExpression where
  div tidy e := Laurent.divWith_toLaurent tidy e ordinary
  divisionByZero tidy e := Laurent.divWith_divisionByZero_iff tidy e ordinary
  invalidArgument tidy e := Laurent.divWith_invalidArgument_iff tidy e ordinary
  substitute tidy _ _ _ bound :=
    Laurent.substituteWith_asExpression tidy bound fun vanishing => absurd vanishing ordinary

theorem IsVanishing.unlikeExpression (h : o.IsVanishing) : o.UnlikeExpression where
  zero := h.polynomial
  div tidy e := Laurent.divWith_of_isVanishing tidy e h
  substitute tidy _ _ _ bound allowed :=
    Laurent.substituteWith_asExpression tidy bound fun _ => allowed

/-- Twice a symbol over the symbol. -/
def cancelledTwo : Operand := .monomial ⟨.ofInt 2, [⟨"y", 1⟩, ⟨"y", -1⟩]⟩

/-- Zero times a symbol. -/
def zeroTimesSymbol : Operand := .monomial ⟨.zero, [⟨"y", 1⟩]⟩

end Operand

end ExactAlgebra
