import ExactAlgebra.Proofs.Lowering
import ExactAlgebra.Proofs.Operands
import ExactAlgebra.Formula.Token

/-!
The values of formulas. With a number for each symbol a formula stands for a number, unless it
divides by zero or has an exponent that is not a natural number. The expression that is built from a
formula is a polynomial without negative degrees and takes these values. Nothing is built exactly
when some part of the formula is at fault, and divisors and exponents are judged by the expressions
they stand for.
-/
namespace ExactAlgebra

open LaurentRing

namespace LaurentRing

/-- A polynomial with the symbols for its indeterminates. -/
noncomputable def inSymbols : MvPolynomial String ℚ →ₐ[ℚ] LaurentRing := MvPolynomial.aeval symbol

/-- Degrees that are natural numbers. -/
noncomputable def naturalExponents : (String →₀ ℕ) →+ Exponents :=
  Finsupp.mapRange.addMonoidHom (Nat.castAddMonoidHom ℤ)

theorem naturalExponents_single (s : String) (k : ℕ) :
    naturalExponents (Finsupp.single s k) = Finsupp.single s (k : ℤ) := by
  rw [naturalExponents, Finsupp.mapRange.addMonoidHom_apply, Finsupp.mapRange_single]
  rfl

theorem prod_naturalExponents (σ : String → ℚ) (d : String →₀ ℕ) :
    (naturalExponents d).prod (fun s k => σ s ^ k) = d.prod fun s k => σ s ^ k := by
  rw [naturalExponents, Finsupp.mapRange.addMonoidHom_apply,
    Finsupp.prod_mapRange_index fun s => zpow_zero (σ s)]
  exact Finsupp.prod_congr fun s _ => zpow_natCast (σ s) (d s)

@[simp] theorem inSymbols_C (c : ℚ) : inSymbols (.C c) = constant c := by
  rw [inSymbols, MvPolynomial.aeval_C]
  rfl

@[simp] theorem inSymbols_X (s : String) : inSymbols (.X s) = symbol s := MvPolynomial.aeval_X _ _

theorem inSymbols_monomial (d : String →₀ ℕ) (c : ℚ) :
    inSymbols (.monomial d c) = .single (naturalExponents d) c := by
  induction d using Finsupp.induction_linear generalizing c with
  | zero =>
    rw [← MvPolynomial.C_apply, inSymbols_C, map_zero, constant]
  | add d f hd hf =>
    rw [← mul_one c, ← MvPolynomial.monomial_mul, map_mul, hd, hf,
      AddMonoidAlgebra.single_mul_single, map_add]
  | single s k =>
    rw [← MvPolynomial.C_mul_X_pow_eq_monomial, map_mul, map_pow, inSymbols_C, inSymbols_X, symbol,
      AddMonoidAlgebra.single_pow, one_pow, constant, AddMonoidAlgebra.single_mul_single, zero_add,
      mul_one, naturalExponents_single, Finsupp.smul_single, nsmul_one]

theorem valueUnder_inSymbols (σ : String → ℚ) (p : MvPolynomial String ℚ) :
    valueUnder σ (inSymbols p) = MvPolynomial.eval σ p := by
  induction p using MvPolynomial.induction_on' with
  | add p q hp hq => rw [map_add, map_add, hp, hq, map_add]
  | monomial d c =>
    rw [inSymbols_monomial, valueUnder_single, MvPolynomial.eval_monomial, prod_naturalExponents]

theorem not_hasNegativeDegree_inSymbols (p : MvPolynomial String ℚ) (s : String) :
    ¬ (inSymbols p).HasNegativeDegree s := by
  rw [not_hasNegativeDegree_iff]
  induction p using MvPolynomial.induction_on' with
  | add p q hp hq =>
    intro d hd
    rw [map_add, AddMonoidAlgebra.coeff_add, Finsupp.add_apply] at hd
    by_cases first : (inSymbols p).coeff d = 0
    · exact hq d fun second => hd (by rw [first, second, add_zero])
    · exact hp d first
  | monomial d c =>
    intro f hf
    rw [inSymbols_monomial, AddMonoidAlgebra.coeff_single, Finsupp.single_apply] at hf
    split at hf
    · next same =>
      rw [← same]
      exact Int.natCast_nonneg (d s)
    · exact absurd rfl hf

end LaurentRing

section Names

variable {R S : Type} [CommSemiring R] [CommSemiring S]

/-- The product of a run of letters, the last of which stands under an exponent. -/
def lettersPower (x : String → R) : List Char → ℕ → R
  | [], _ => 1
  | [c], k => x (String.singleton c) ^ k
  | c :: d :: rest, k => x (String.singleton c) * lettersPower x (d :: rest) k

/-- A name under an exponent: one symbol if the list has it, and else a run of letters. -/
def GreekNames.power (greek : GreekNames) (x : String → R) (letters : String) (k : ℕ) : R :=
  if greek.contains letters then x letters ^ k else lettersPower x letters.toList k

theorem lettersPower_append (x : String → R) (cs : List Char) (c : Char) (k : ℕ) :
    lettersPower x (cs ++ [c]) k =
      (cs.map fun c => x (String.singleton c)).prod * x (String.singleton c) ^ k := by
  induction cs with
  | nil => simp [lettersPower]
  | cons d rest ih =>
    have step : lettersPower x (d :: (rest ++ [c])) k =
        x (String.singleton d) * lettersPower x (rest ++ [c]) k := by
      cases rest <;> rfl
    rw [List.cons_append, step, ih, List.map_cons, List.prod_cons, mul_assoc]

theorem lettersPower_one (x : String → R) (cs : List Char) :
    lettersPower x cs 1 = (cs.map fun c => x (String.singleton c)).prod := by
  rcases cs.eq_nil_or_concat' with rfl | ⟨before, c, rfl⟩
  · rfl
  · rw [lettersPower_append, pow_one, List.map_append, List.prod_append, List.map_singleton,
      List.prod_singleton]

theorem map_lettersPower (φ : R →+* S) (x : String → R) (cs : List Char) (k : ℕ) :
    φ (lettersPower x cs k) = lettersPower (fun s => φ (x s)) cs k := by
  rcases cs.eq_nil_or_concat' with rfl | ⟨before, c, rfl⟩
  · exact map_one φ
  · rw [lettersPower_append, lettersPower_append, map_mul, map_pow, map_list_prod, List.map_map]
    rfl

theorem GreekNames.map_power (φ : R →+* S) (greek : GreekNames) (x : String → R)
    (letters : String) (k : ℕ) :
    φ (greek.power x letters k) = greek.power (fun s => φ (x s)) letters k := by
  unfold power
  split
  · exact map_pow φ _ k
  · exact map_lettersPower φ x _ k

theorem GreekNames.inSymbols_power (greek : GreekNames) (letters : String) (k : ℕ) :
    inSymbols (greek.power .X letters k) = greek.power symbol letters k := by
  rw [← AlgHom.coe_toRingHom, map_power]
  simp only [AlgHom.coe_toRingHom, inSymbols_X]

theorem GreekNames.eval_power (greek : GreekNames) (σ : String → ℚ) (letters : String) (k : ℕ) :
    MvPolynomial.eval σ (greek.power .X letters k) = greek.power σ letters k := by
  rw [map_power]
  simp only [MvPolynomial.eval_X]

end Names

/-- The natural number that a rational number is. -/
def natural? (q : ℚ) : Option ℕ := if q.den = 1 ∧ 0 ≤ q.num then some q.num.toNat else none

theorem natural?_natCast (n : ℕ) : natural? n = some n := by
  simp [natural?]

namespace Formula

/-- The number that a formula stands for, with a number for each symbol. Nothing is divided by zero,
and exponents are natural numbers. -/
def value? (greek : GreekNames) (σ : String → ℚ) : Formula → Option ℚ
  | number digits places => some (digits / 10 ^ places)
  | name letters => some (greek.power σ letters 1)
  | add f g => do
    let x ← f.value? greek σ
    let y ← g.value? greek σ
    return x + y
  | sub f g => do
    let x ← f.value? greek σ
    let y ← g.value? greek σ
    return x - y
  | mul f g => do
    let x ← f.value? greek σ
    let y ← g.value? greek σ
    return x * y
  | div f g => do
    let x ← f.value? greek σ
    let y ← g.value? greek σ
    if y = 0 then none else some (x / y)
  | neg f => do
    let x ← f.value? greek σ
    return -x
  | pow (name letters) exponent => do
    let k ← natural? (← exponent.value? greek σ)
    return greek.power σ letters k
  | pow base exponent => do
    let k ← natural? (← exponent.value? greek σ)
    let x ← base.value? greek σ
    return x ^ k

/-- A formula and the formulas that it is made of. -/
def subformulas (f : Formula) : List Formula :=
  f :: match f with
    | number _ _ | name _ => []
    | add g h | sub g h | mul g h | div g h | pow g h => g.subformulas ++ h.subformulas
    | neg g => g.subformulas

/-- Why no expression is built from a formula: a divisor is zero or is not a number, or an exponent
is not a natural number within the limit. Both are judged by what they stand for. -/
inductive Faulty (greek : GreekNames) : FailureKind → Formula → Prop
  | zeroDivisor {f g : Formula} {e : Laurent} (divisor : g.toLaurent greek = .ok e)
    (zero : e.polynomial = 0) : Faulty greek .divisionByZero (div f g)
  | openDivisor {f g : Formula} {e : Laurent} (divisor : g.toLaurent greek = .ok e)
    (symbols : ¬ e.polynomial.IsConstant) : Faulty greek .invalidArgument (div f g)
  | exponent {f g : Formula} {e : Laurent} (exponent : g.toLaurent greek = .ok e)
    (unfit : ¬ ∃ n : ℕ, n ≤ 64 ∧ e.polynomial = constant n) :
    Faulty greek .invalidArgument (pow f g)

section Exponents

theorem isInteger_ofRat_iff (q : ℚ) : (Ratio.ofRat q).isInteger = true ↔ q.den = 1 := by
  rw [Ratio.isInteger, beq_iff_eq]
  constructor
  · intro whole
    have divides := Int.natCast_dvd.mp (Int.dvd_of_emod_eq_zero whole)
    exact Nat.Coprime.eq_one_of_dvd q.reduced.symm divides
  · intro whole
    simp [Ratio.ofRat, whole]

/-- An exponent counts when it stands for a natural number below the bound of exponents. -/
theorem exponent?_eq_some_iff (e : Laurent) (n : ℕ) :
    e.exponent? = some n ↔ e.polynomial = constant n ∧ n < 0x100000000 := by
  by_cases number : e.polynomial.IsConstant
  · obtain ⟨c, hc⟩ := number
    have same : e.polynomial = constant n ↔ c = n := by
      rw [hc]
      exact ⟨fun h => constant_injective h, fun h => h ▸ rfl⟩
    rw [same, Laurent.exponent?, Laurent.constantValue?_of_constant hc]
    have num : (Ratio.ofRat c).num = c.num := rfl
    simp only [isInteger_ofRat_iff, Ratio.reduce_ofRat, naturalExponent?, num]
    constructor
    · intro found
      split at found
      · next whole =>
        split at found
        · next bounds =>
          cases found
          refine ⟨?_, by omega⟩
          rw [← Int.cast_natCast, Int.toNat_of_nonneg bounds.1, Rat.coe_int_num_of_den_eq_one whole]
        · cases found
      · cases found
    · rintro ⟨rfl, low⟩
      simp [low]
  · have other : e.polynomial ≠ constant n := fun h => number ⟨n, h⟩
    rw [Laurent.exponent?, Laurent.constantValue?_of_not_constant number]
    simp [other]

end Exponents

section Bases

variable {greek : GreekNames}

theorem lastLetter?_eq_some {base : Formula} {before : List Char} {last : Char}
    (found : base.lastLetter? greek = some (before, last)) : ∃ letters,
      base = name letters ∧ greek.contains letters = false ∧ letters.toList = before ++ [last] := by
  unfold lastLetter? at found
  split at found
  · next letters =>
    split at found
    · cases found
    · next split =>
      obtain ⟨c, hc, same⟩ := Option.map_eq_some_iff.mp found
      cases same
      rw [Bool.or_eq_true, not_or, Bool.not_eq_true] at split
      exact ⟨letters, rfl, split.1, (List.dropLast_append_getLast? _ hc).symm⟩
  · cases found

theorem polynomial_product (cs : List Char) :
    (Laurent.letters cs).polynomial = lettersPower symbol cs 1 := by
  rw [Laurent.polynomial_letters, lettersPower_one]
  induction cs with
  | nil => rfl
  | cons c rest ih =>
    rw [List.map_cons, List.map_cons, List.sum_cons, List.prod_cons, ← ih, symbol,
      AddMonoidAlgebra.single_mul_single, mul_one]

theorem polynomial_of_name {letters : String} {e : Laurent}
    (built : (name letters).toLaurent greek = .ok e) :
    e.polynomial = greek.power symbol letters 1 := by
  cases built
  unfold GreekNames.power
  split
  · rw [Laurent.polynomial_symbol, pow_one]
  · exact polynomial_product _

/-- A name that is not split is raised as a whole. -/
theorem power_of_whole {R : Type} [CommSemiring R] {letters : String}
    (whole : (name letters).lastLetter? greek = none) (x : String → R) (k : ℕ) :
    greek.power x letters 1 ^ k = greek.power x letters k := by
  simp only [lastLetter?] at whole
  unfold GreekNames.power
  by_cases known : greek.contains letters = true
  · rw [if_pos known, if_pos known, pow_one]
  · rw [if_neg known, if_neg known]
    rw [Bool.not_eq_true] at known
    rw [known] at whole
    cases run : letters.toList with
    | nil => exact one_pow k
    | cons c rest =>
      cases rest with
      | nil => simp [lettersPower]
      | cons d rest => simp [run] at whole

end Bases

section Steps

variable {greek : GreekNames} {f g : Formula} {d e : Laurent} {n : ℕ} {failure : Failure}

theorem div_failed (failed : e.div d = .error failure) :
    failure.kind = .divisionByZero ∧ d.polynomial = 0 ∨
      failure.kind = .invalidArgument ∧ ¬ d.polynomial.IsConstant := by
  rcases Laurent.divWith_outcome (o := .laurent d) true e id with ⟨zero, answer⟩ |
    ⟨symbols, answer⟩ | ⟨-, -, f, answer⟩
  · cases answer.symm.trans failed
    exact .inl ⟨rfl, zero⟩
  · cases answer.symm.trans failed
    exact .inr ⟨rfl, symbols⟩
  · cases answer.symm.trans failed

theorem div_succeeded {q : Laurent} (divided : e.div d = .ok q) :
    ∃ c, c ≠ 0 ∧ d.polynomial = constant c ∧ q.polynomial = e.polynomial * constant c⁻¹ := by
  obtain ⟨r, g, scalar, nonzero, rfl, quotient⟩ := Laurent.exists_of_divWith true divided
  refine ⟨r.value, nonzero, Operand.polynomial_of_scalar? (o := .laurent d) scalar, ?_⟩
  rw [Laurent.polynomial_finish, quotient]

theorem pow_failed (failed : e.pow n = .error failure) :
    failure.kind = .invalidArgument ∧ 64 < n := by
  rcases le_or_gt n 64 with low | high
  · cases (Laurent.powWith_of_le true e low).symm.trans failed
  · cases (Laurent.powWith_of_lt true e high).symm.trans failed
    exact ⟨rfl, high⟩

theorem pow_succeeded {q : Laurent} (raised : e.pow n = .ok q) :
    n ≤ 64 ∧ q.polynomial = e.polynomial ^ n := by
  rcases le_or_gt n 64 with low | high
  · cases (Laurent.powWith_of_le true e low).symm.trans raised
    exact ⟨low, Laurent.polynomial_pow true e n⟩
  · cases (Laurent.powWith_of_lt true e high).symm.trans raised

theorem not_fit (number : e.polynomial = constant n) (high : 64 < n) :
    ¬ ∃ k : ℕ, k ≤ 64 ∧ e.polynomial = constant k := by
  rintro ⟨k, low, same⟩
  have equal := Nat.cast_injective (R := ℚ) (constant_injective (number.symm.trans same))
  omega

/-- A power fails at its exponent, at its base, or because the exponent does not fit. -/
theorem toLaurent_pow_failed (failed : (pow f g).toLaurent greek = .error failure) :
    g.toLaurent greek = .error failure ∨ f.toLaurent greek = .error failure ∨
      ∃ x, g.toLaurent greek = .ok x ∧ (¬ ∃ k : ℕ, k ≤ 64 ∧ x.polynomial = constant k) ∧
        failure.kind = .invalidArgument := by
  rcases error_of_bind failed with exponent | ⟨x, exponent, failed⟩
  · exact .inl exponent
  · refine .inr ?_
    split at failed
    · next unfit =>
      cases failed
      refine .inr ⟨x, exponent, ?_, rfl⟩
      rintro ⟨k, low, number⟩
      rw [(exponent?_eq_some_iff x k).mpr ⟨number, by omega⟩] at unfit
      cases unfit
    · next n fit =>
      have number := ((exponent?_eq_some_iff x n).mp fit).1
      split at failed
      · obtain ⟨kind, high⟩ := pow_failed (error_of_map failed)
        exact .inr ⟨x, exponent, not_fit number high, kind⟩
      · rcases error_of_bind failed with base | ⟨b, -, failed⟩
        · exact .inl base
        · obtain ⟨kind, high⟩ := pow_failed failed
          exact .inr ⟨x, exponent, not_fit number high, kind⟩

/-- A power raises the last letter of a base that is a name, and any other base as a whole. -/
theorem toLaurent_pow_succeeded (built : (pow f g).toLaurent greek = .ok e) :
    ∃ x k, g.toLaurent greek = .ok x ∧ k ≤ 64 ∧ x.polynomial = constant (k : ℕ) ∧
      ((∃ letters, f = name letters ∧ e.polynomial = greek.power symbol letters k) ∨
        (∀ letters, f ≠ name letters) ∧
          ∃ b, f.toLaurent greek = .ok b ∧ e.polynomial = b.polynomial ^ k) := by
  obtain ⟨x, exponent, built⟩ := exists_of_bind built
  split at built
  · cases built
  · next k fit =>
    have number := ((exponent?_eq_some_iff x k).mp fit).1
    refine ⟨x, k, exponent, ?_⟩
    split at built
    · next before last split =>
      obtain ⟨b, raised, rfl⟩ := exists_of_map built
      obtain ⟨letters, rfl, other, run⟩ := lastLetter?_eq_some split
      obtain ⟨low, power⟩ := pow_succeeded raised
      refine ⟨low, number, .inl ⟨letters, rfl, ?_⟩⟩
      rw [Laurent.polynomial_mul, power, polynomial_product, polynomial_product, lettersPower_one,
        GreekNames.power, other, run, lettersPower_append]
      simp [lettersPower]
    · next whole =>
      obtain ⟨b, base, raised⟩ := exists_of_bind built
      obtain ⟨low, power⟩ := pow_succeeded raised
      refine ⟨low, number, ?_⟩
      by_cases letters : ∃ letters, f = name letters
      · obtain ⟨letters, rfl⟩ := letters
        refine .inl ⟨letters, rfl, ?_⟩
        rw [power, polynomial_of_name base, power_of_whole whole]
      · exact .inr ⟨not_exists.mp letters, b, base, power⟩

end Steps

section Faults

variable {greek : GreekNames} {kind : FailureKind} {f g h : Formula}

/-- A formula or a part of it is at fault. -/
def HasFault (greek : GreekNames) (kind : FailureKind) (f : Formula) : Prop :=
  ∃ g ∈ f.subformulas, Faulty greek kind g

theorem HasFault.self (fault : Faulty greek kind f) : HasFault greek kind f := by
  refine ⟨f, ?_, fault⟩
  unfold subformulas
  exact List.mem_cons_self

/-- A fault of a formula with two parts is its own or one of a part. -/
theorem hasFault_of_pair (parts : f.subformulas = f :: (g.subformulas ++ h.subformulas)) :
    HasFault greek kind f ↔
      Faulty greek kind f ∨ HasFault greek kind g ∨ HasFault greek kind h := by
  simp only [HasFault, parts, List.mem_cons, List.mem_append, or_and_right, exists_or,
    exists_eq_left]

theorem hasFault_neg : HasFault greek kind (neg f) ↔ HasFault greek kind f := by
  have sound : ¬ Faulty greek kind (neg f) := nofun
  simp only [HasFault, subformulas, List.mem_cons, or_and_right, exists_or, exists_eq_left, sound,
    false_or]

theorem not_hasFault_of_leaf (leaf : f.subformulas = [f]) (sound : ¬ Faulty greek kind f) :
    ¬ HasFault greek kind f := by
  simpa only [HasFault, leaf, List.mem_singleton, exists_eq_left] using sound

/-- What fails is at fault somewhere, in the way in which it fails. -/
theorem hasFault_of_failed {failure : Failure} (failed : f.toLaurent greek = .error failure) :
    HasFault greek failure.kind f := by
  induction f with
  | number | name => cases failed
  | add f g left right | sub f g left right | mul f g left right =>
    refine (hasFault_of_pair rfl).mpr (.inr ?_)
    rcases error_of_bind failed with first | ⟨_, -, failed⟩
    · exact .inl (left first)
    · rcases error_of_bind failed with second | ⟨_, -, failed⟩
      · exact .inr (right second)
      · cases failed
  | div f g left right =>
    rcases error_of_bind failed with first | ⟨_, -, failed⟩
    · exact (hasFault_of_pair rfl).mpr (.inr (.inl (left first)))
    · rcases error_of_bind failed with second | ⟨d, divisor, failed⟩
      · exact (hasFault_of_pair rfl).mpr (.inr (.inr (right second)))
      · rcases div_failed failed with ⟨kind, zero⟩ | ⟨kind, symbols⟩
        · exact kind ▸ .self (.zeroDivisor divisor zero)
        · exact kind ▸ .self (.openDivisor divisor symbols)
  | neg f operand =>
    rcases error_of_bind failed with first | ⟨_, -, failed⟩
    · exact hasFault_neg.mpr (operand first)
    · cases failed
  | pow base exponent left right =>
    rcases toLaurent_pow_failed failed with first | second | ⟨x, found, unfit, kind⟩
    · exact (hasFault_of_pair rfl).mpr (.inr (.inr (right first)))
    · exact (hasFault_of_pair rfl).mpr (.inr (.inl (left second)))
    · exact kind ▸ .self (.exponent found unfit)

/-- What is built is not at fault anywhere. -/
theorem not_hasFault_of_built {e : Laurent} (built : f.toLaurent greek = .ok e) :
    ¬ HasFault greek kind f := by
  induction f generalizing e with
  | number | name => exact not_hasFault_of_leaf rfl nofun
  | add f g left right | sub f g left right | mul f g left right =>
    obtain ⟨a, first, built⟩ := exists_of_bind built
    obtain ⟨b, second, built⟩ := exists_of_bind built
    rw [hasFault_of_pair rfl, or_iff_right nofun, not_or]
    exact ⟨left first, right second⟩
  | div f g left right =>
    obtain ⟨a, first, built⟩ := exists_of_bind built
    obtain ⟨b, second, built⟩ := exists_of_bind built
    obtain ⟨c, nonzero, number, -⟩ := div_succeeded built
    rw [hasFault_of_pair rfl, not_or, not_or]
    refine ⟨?_, left first, right second⟩
    rintro (⟨divisor, zero⟩ | ⟨divisor, symbols⟩)
    · cases second.symm.trans divisor
      exact nonzero (constant_injective (number.symm.trans (zero.trans constant_zero.symm)))
    · cases second.symm.trans divisor
      exact symbols ⟨c, number⟩
  | neg f operand =>
    obtain ⟨a, first, built⟩ := exists_of_bind built
    rw [hasFault_neg]
    exact operand first
  | pow base exponent left right =>
    obtain ⟨x, k, found, low, number, cases⟩ := toLaurent_pow_succeeded built
    rw [hasFault_of_pair rfl, not_or, not_or]
    refine ⟨?_, ?_, right found⟩
    · rintro (_ | _ | ⟨again, unfit⟩)
      cases found.symm.trans again
      exact unfit ⟨k, low, number⟩
    -- a run of letters may be raised without being lowered itself, but a leaf has no fault
    · rcases cases with ⟨letters, rfl, -⟩ | ⟨-, b, raised, -⟩
      · exact not_hasFault_of_leaf rfl nofun
      · exact left raised

end Faults

section Values

variable {greek : GreekNames} {f : Formula} {e : Laurent}

theorem value?_pow_of_ne {base exponent : Formula} (whole : ∀ letters, base ≠ name letters)
    (σ : String → ℚ) :
    (pow base exponent).value? greek σ = (do
      let k ← natural? (← exponent.value? greek σ)
      let x ← base.value? greek σ
      return x ^ k) := by
  cases base with
  | name letters => exact absurd rfl (whole letters)
  | _ => rfl

/-- A number behind a polynomial is its value everywhere. -/
theorem eval_of_constant {p : MvPolynomial String ℚ} {c : ℚ} (number : inSymbols p = constant c)
    (σ : String → ℚ) : MvPolynomial.eval σ p = c := by
  rw [← valueUnder_inSymbols, number, valueUnder_constant]

/-- What is built is a polynomial in the symbols, without negative degrees, that has the values of
the formula. -/
theorem exists_polynomial (built : f.toLaurent greek = .ok e) :
    ∃ p, e.polynomial = inSymbols p ∧
      ∀ σ, f.value? greek σ = some (MvPolynomial.eval σ p) := by
  induction f generalizing e with
  | number digits places =>
    cases built
    refine ⟨.C (digits / 10 ^ places), ?_, fun σ => ?_⟩
    · rw [Laurent.polynomial_const, inSymbols_C, Ratio.value_eq]
      simp [decimal]
    · rw [MvPolynomial.eval_C, value?]
  | name letters =>
    refine ⟨greek.power .X letters 1, ?_, fun σ => ?_⟩
    · rw [polynomial_of_name built, GreekNames.inSymbols_power]
    · rw [GreekNames.eval_power, value?]
  | add f g left right =>
    obtain ⟨a, first, built⟩ := exists_of_bind built
    obtain ⟨b, second, built⟩ := exists_of_bind built
    cases built
    obtain ⟨p, hp, vp⟩ := left first
    obtain ⟨q, hq, vq⟩ := right second
    refine ⟨p + q, ?_, fun σ => ?_⟩
    · rw [Laurent.polynomial_add, hp, hq, map_add]
    · simp [value?, vp, vq]
  | sub f g left right =>
    obtain ⟨a, first, built⟩ := exists_of_bind built
    obtain ⟨b, second, built⟩ := exists_of_bind built
    cases built
    obtain ⟨p, hp, vp⟩ := left first
    obtain ⟨q, hq, vq⟩ := right second
    refine ⟨p - q, ?_, fun σ => ?_⟩
    · rw [Laurent.polynomial_sub, hp, hq, map_sub]
    · simp [value?, vp, vq]
  | mul f g left right =>
    obtain ⟨a, first, built⟩ := exists_of_bind built
    obtain ⟨b, second, built⟩ := exists_of_bind built
    cases built
    obtain ⟨p, hp, vp⟩ := left first
    obtain ⟨q, hq, vq⟩ := right second
    refine ⟨p * q, ?_, fun σ => ?_⟩
    · rw [Laurent.polynomial_mul, hp, hq, map_mul]
    · simp [value?, vp, vq]
  | div f g left right =>
    obtain ⟨a, first, built⟩ := exists_of_bind built
    obtain ⟨b, second, built⟩ := exists_of_bind built
    obtain ⟨p, hp, vp⟩ := left first
    obtain ⟨q, hq, vq⟩ := right second
    obtain ⟨c, nonzero, number, quotient⟩ := div_succeeded built
    refine ⟨p * .C c⁻¹, ?_, fun σ => ?_⟩
    · rw [quotient, hp, map_mul, inSymbols_C]
    · simp [value?, vp, vq, eval_of_constant (hq.symm.trans number), nonzero, div_eq_mul_inv]
  | neg f operand =>
    obtain ⟨a, first, built⟩ := exists_of_bind built
    cases built
    obtain ⟨p, hp, vp⟩ := operand first
    refine ⟨-p, ?_, fun σ => ?_⟩
    · rw [Laurent.polynomial_neg, hp, map_neg]
    · simp [value?, vp]
  | pow base exponent left right =>
    obtain ⟨x, k, found, -, number, cases⟩ := toLaurent_pow_succeeded built
    obtain ⟨q, hq, vq⟩ := right found
    have value (σ : String → ℚ) := eval_of_constant (hq.symm.trans number) σ
    -- a power of a name need not be the power of what the name stands for
    rcases cases with ⟨letters, rfl, run⟩ | ⟨whole, b, raised, power⟩
    · refine ⟨greek.power .X letters k, ?_, fun σ => ?_⟩
      · rw [run, GreekNames.inSymbols_power]
      · simp [value?, vq, value, natural?_natCast, GreekNames.eval_power]
    · obtain ⟨p, hp, vp⟩ := left raised
      refine ⟨p ^ k, ?_, fun σ => ?_⟩
      · rw [power, hp, map_pow]
      · simp [value?_pow_of_ne whole, vq, vp, value, natural?_natCast]

/-- What is built holds no degree below one. -/
theorem degree_pos (built : f.toLaurent greek = .ok e) {m : Monomial} (term : m ∈ e.terms)
    {p : Power} (power : p ∈ m.powers) : 0 < p.degree := by
  have normal := toLaurent_normal built
  obtain ⟨degree, nonzero⟩ := ((normal.terms m term).1.mem_powers_iff p).mp power
  obtain ⟨q, hq, -⟩ := exists_polynomial built
  have occurs : e.polynomial.coeff m.exponents ≠ 0 := by
    rw [normal.coeff_of_mem term]
    exact (normal.terms m term).2.2
  rw [hq] at occurs
  have least := not_hasNegativeDegree_iff.mp (not_hasNegativeDegree_inSymbols q p.symbol) _ occurs
  omega

theorem value?_of_built (built : f.toLaurent greek = .ok e) (σ : String → ℚ) :
    f.value? greek σ = some (valueUnder σ e.polynomial) := by
  obtain ⟨p, hp, value⟩ := exists_polynomial built
  rw [value, hp, valueUnder_inSymbols]

end Values

section Numerals

open Token

/-- A number reads as its whole part and its decimal places, however many digits there are. -/
theorem value_numeral {whole fraction : List Char} {digits places : ℕ}
    (read : numeral whole fraction = .number digits places) : (digits / 10 ^ places : ℚ) =
      Nat.ofDigitChars 10 whole 0 + Nat.ofDigitChars 10 fraction 0 / 10 ^ fraction.length := by
  cases read
  rw [Nat.ofDigitChars_append, Nat.ofDigitChars_eq_ofDigitChars_zero]
  push_cast
  rw [add_div, mul_div_cancel_left₀ _ (by positivity)]

end Numerals

/-- Building the expression of a formula computes the values of the formula. It fails exactly when a
part of the formula is at fault, and with the kind of such a fault. -/
theorem toLaurent_computes (greek : GreekNames) (f : Formula) :
    (∀ e, f.toLaurent greek = .ok e →
      (∀ m ∈ e.terms, ∀ p ∈ m.powers, 0 < p.degree) ∧
      ∀ σ, f.value? greek σ = some (valueUnder σ e.polynomial)) ∧
    (∀ failure, f.toLaurent greek = .error failure →
      ∃ g ∈ f.subformulas, Faulty greek failure.kind g) ∧
    (∀ kind, ∀ g ∈ f.subformulas, Faulty greek kind g →
      ∃ failure, f.toLaurent greek = .error failure) ∧
    (∀ whole fraction digits places, Token.numeral whole fraction = .number digits places →
      ∀ σ, (number digits places).value? greek σ = some (Nat.ofDigitChars 10 whole 0 +
        Nat.ofDigitChars 10 fraction 0 / 10 ^ fraction.length : ℚ)) := by
  refine ⟨fun e built => ⟨fun m term p power => degree_pos built term power, value?_of_built built⟩,
    fun failure failed => hasFault_of_failed failed, ?_, ?_⟩
  · intro kind g part fault
    cases outcome : f.toLaurent greek with
    | error failure => exact ⟨failure, rfl⟩
    | ok e => exact absurd ⟨g, part, fault⟩ (not_hasFault_of_built outcome)
  · intro whole fraction digits places read σ
    rw [value?, value_numeral read]

end Formula

end ExactAlgebra
