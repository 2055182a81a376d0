import ExactAlgebra.Proofs.FormulaValues
import ExactAlgebra.Proofs.WordEvaluation
import ExactAlgebra.Wrapping.Formulas

/-!
The expressions of formulas with degrees of 64 bits. As long as no part of a formula has a degree
that leaves the range, the formula is lowered to the expression with unbounded degrees, or fails as
it does there, so it takes the values of the formula. A tower of powers leaves the range after ten
steps and is lowered to a negative degree.
-/
namespace ExactAlgebra

open LaurentRing

namespace Formula

variable {greek : GreekNames} {f g h : Formula}

/-- No degree of the expression of a formula, or of a part of it, leaves the range. -/
def StaysInRange (greek : GreekNames) (f : Formula) : Prop :=
  ∀ g ∈ f.subformulas, OutcomeInRange (g.toLaurent greek)

instance : Decidable (f.StaysInRange greek) := inferInstanceAs (Decidable (∀ _ ∈ _, _))

theorem mem_subformulas_self (f : Formula) : f ∈ f.subformulas := by
  unfold subformulas
  exact List.mem_cons_self

/-- Parts of parts are parts. -/
theorem mem_subformulas_trans (part : g ∈ f.subformulas) (inner : h ∈ g.subformulas) :
    h ∈ f.subformulas := by
  induction f with
  | number | name =>
    rw [subformulas, List.mem_singleton] at part
    exact part ▸ inner
  | add f k left right | sub f k left right | mul f k left right | div f k left right
  | pow f k left right =>
    rw [subformulas, List.mem_cons, List.mem_append] at part
    rcases part with rfl | first | second
    · exact inner
    · exact List.mem_cons_of_mem _ (List.mem_append_left _ (left first))
    · exact List.mem_cons_of_mem _ (List.mem_append_right _ (right second))
  | neg f operand =>
    rw [subformulas, List.mem_cons] at part
    rcases part with rfl | part
    · exact inner
    · exact List.mem_cons_of_mem _ (operand part)

namespace StaysInRange

theorem self (range : f.StaysInRange greek) : OutcomeInRange (f.toLaurent greek) :=
  range f f.mem_subformulas_self

theorem part (range : f.StaysInRange greek) (part : g ∈ f.subformulas) : g.StaysInRange greek :=
  fun h inner => range h (mem_subformulas_trans part inner)

theorem left (range : f.StaysInRange greek)
    (parts : f.subformulas = f :: (g.subformulas ++ h.subformulas)) : g.StaysInRange greek := by
  apply range.part
  rw [parts]
  exact List.mem_cons_of_mem _ (List.mem_append_left _ g.mem_subformulas_self)

theorem right (range : f.StaysInRange greek)
    (parts : f.subformulas = f :: (g.subformulas ++ h.subformulas)) : h.StaysInRange greek := by
  apply range.part
  rw [parts]
  exact List.mem_cons_of_mem _ (List.mem_append_right _ h.mem_subformulas_self)

end StaysInRange

end Formula

namespace Wrapping

section Steps

variable {e d : Laurent} {n : ℕ}

theorem wrapped_letters (cs : List Char) : (letters cs).wrapped = letters cs := by
  rcases cs.eq_nil_or_concat' with rfl | ⟨before, c, rfl⟩
  · decide
  · rw [letters, List.foldl_append]
    exact Laurent.wrapped_wrapped _

theorem residue_letters (cs : List Char) :
    residue (letters cs).polynomial = residue (Laurent.letters cs).polynomial := by
  have run (e f : Laurent) (same : residue e.polynomial = residue f.polynomial) :
      residue (cs.foldl (fun product c => mul product (.symbol (String.singleton c))) e).polynomial =
        residue (cs.foldl (fun product c =>
          product.mul (.symbol (String.singleton c))) f).polynomial := by
    induction cs generalizing e f with
    | nil => exact same
    | cons c rest ih =>
      apply ih
      rw [residue_mul, Laurent.polynomial_mul, map_mul, same]
  exact run _ _ rfl

theorem letters_eq {cs : List Char} (fits : (Laurent.letters cs).InRange) :
    letters cs = Laurent.letters cs := by
  rw [← wrapped_letters, Laurent.wrapped_eq_of_residue (residue_letters cs) fits,
    (Laurent.letters_normal cs).normalize_eq]

theorem exponent?_eq (fits : e.InRange) : exponent? e = e.exponent? := by
  have terms : e.wrapTerms.polynomial = e.polynomial :=
    Operand.polynomial_wrapTerms (o := .laurent e) fits
  rw [exponent?, Laurent.exponent?, Laurent.exponent?, Laurent.constantValue?_eq terms]

theorem divWith_eq (divisor : d.InRange) (fits : OutcomeInRange (e.div d)) :
    divWith true e (.laurent d) = e.div d := by
  have number : scalar? (.laurent d) = d.constantValue? := scalar?_eq (o := .laurent d) divisor
  have finished (answer : Option Laurent)
      (fits : OutcomeInRange (orDivisionByZero (answer.map (Laurent.finish true)))) :
      orDivisionByZero (answer.map (finish true)) =
        orDivisionByZero (answer.map (Laurent.finish true)) := by
    cases answer with
    | none => rfl
    | some q => exact congrArg Except.ok (Laurent.wrapped_eq ((Laurent.inRange_normalize q).mp fits))
  unfold divWith
  unfold Laurent.div Laurent.divWith at fits ⊢
  simp only [number, Operand.scalar?] at fits ⊢
  cases scalar : d.constantValue? with
  | none => rfl
  | some r =>
    rw [scalar] at fits
    exact finished _ fits

/-- A power in range, with a factor in front of it. -/
theorem mul_powWith_eq {a b : Laurent} (base : residue e.polynomial = residue d.polynomial)
    (factor : residue a.polynomial = residue b.polynomial)
    (fits : OutcomeInRange ((d.pow n).map b.mul)) :
    (powWith true e n).map (mul a) = (d.pow n).map b.mul := by
  rcases le_or_gt n 64 with low | high
  · rw [Laurent.pow, Laurent.powWith_of_le true d low] at fits ⊢
    rw [powWith_of_le true e low]
    refine congrArg Except.ok (Laurent.wrapped_eq_of_residue ?_
      ((Laurent.inRange_normalize _).mp fits))
    rw [Laurent.polynomial_mulRaw, Laurent.polynomial_mulRaw, map_mul, map_mul, factor,
      residue_finish, residue_repeatMul, Laurent.polynomial_pow, map_pow, base]
  · rw [Laurent.pow, Laurent.powWith_of_lt true d high, powWith_of_lt true e high]
    rfl

theorem powWith_eq (fits : OutcomeInRange (e.pow n)) : powWith true e n = e.pow n := by
  rcases le_or_gt n 64 with low | high
  · rw [Laurent.pow, Laurent.powWith_of_le true e low] at fits ⊢
    rw [powWith_of_le true e low]
    refine congrArg Except.ok (Laurent.wrapped_eq_of_residue ?_
      ((Laurent.inRange_normalize _).mp fits))
    rw [residue_repeatMul, Laurent.polynomial_repeatMul, map_pow]
  · rw [Laurent.pow, Laurent.powWith_of_lt true e high, powWith_of_lt true e high]

end Steps

section Lowering

open Formula (StaysInRange Faulty)

variable {greek : GreekNames} {f : Formula}

/-- Two computations that go on alike from one result, as long as the outcome is in range. -/
theorem bind_eq {α : Type} {x : Except Failure α} {next wide : α → Except Failure Laurent}
    (fits : OutcomeInRange (x >>= wide))
    (agree : ∀ a, x = .ok a → OutcomeInRange (wide a) → next a = wide a) :
    x >>= next = x >>= wide := by
  cases x with
  | error => rfl
  | ok a => exact agree a rfl fits

/-- Two operands joined by operations that agree in range. -/
theorem pair_eq {x y : Except Failure Laurent} {join wide : Laurent → Laurent → Laurent}
    (agree : ∀ e d, (wide e d).InRange → join e d = wide e d)
    (fits : OutcomeInRange (do return wide (← x) (← y))) :
    (do return join (← x) (← y)) = (do return wide (← x) (← y) : Except Failure Laurent) :=
  bind_eq fits fun e _ fits => bind_eq fits fun d _ fits => congrArg Except.ok (agree e d fits)

/-- A formula whose parts stay in range is lowered as with unbounded degrees. -/
theorem lower_eq (range : f.StaysInRange greek) : lower greek f = f.toLaurent greek := by
  induction f with
  | number => rfl
  | name run =>
    have fits := range.self
    unfold lower
    unfold Formula.toLaurent at fits ⊢
    split
    · rfl
    · next split =>
      rw [if_neg split] at fits
      rw [letters_eq fits]
  | add f g left right =>
    have fits := range.self
    rw [Formula.toLaurent] at fits ⊢
    rw [lower, left (range.left rfl), right (range.right rfl)]
    exact pair_eq (fun _ _ => add_eq) fits
  | sub f g left right =>
    have fits := range.self
    rw [Formula.toLaurent] at fits ⊢
    rw [lower, left (range.left rfl), right (range.right rfl)]
    exact pair_eq (fun _ _ => sub_eq) fits
  | mul f g left right =>
    have fits := range.self
    rw [Formula.toLaurent] at fits ⊢
    rw [lower, left (range.left rfl), right (range.right rfl)]
    exact pair_eq (fun _ _ => mul_eq) fits
  | div f g left right =>
    have fits := range.self
    -- a divisor is judged by its normal form in words, which needs the divisor itself in range
    have divisor := (range.right rfl).self
    rw [Formula.toLaurent] at fits ⊢
    rw [lower, left (range.left rfl), right (range.right rfl)]
    refine bind_eq fits fun e _ fits => bind_eq fits fun d built fits => divWith_eq ?_ fits
    rwa [built] at divisor
  | neg f operand =>
    have part : f.StaysInRange greek := range.part (List.mem_cons_of_mem _ f.mem_subformulas_self)
    rw [lower, Formula.toLaurent, operand part]
  | pow base exponent left right =>
    have fits := range.self
    have number := (range.right rfl).self
    rw [Formula.toLaurent] at fits ⊢
    rw [lower, left (range.left rfl), right (range.right rfl)]
    refine bind_eq fits fun e built fits => ?_
    rw [built] at number
    rw [exponent?_eq number]
    cases natural : e.exponent? with
    | none => rfl
    | some n =>
      simp only [natural] at fits ⊢
      cases letter : base.lastLetter? greek with
      | some split =>
        simp only [letter] at fits ⊢
        -- the letters are no parts of the formula, so only their residues are known
        exact mul_powWith_eq (residue_letters _) (residue_letters _) fits
      | none =>
        simp only [letter] at fits ⊢
        exact bind_eq fits fun b _ fits => powWith_eq fits

/-- A text is read as with unbounded degrees when its formula stays in range. -/
theorem read_eq {text : String}
    (range : ∀ f, Formula.ofChars? text.toList = some f → f.StaysInRange greek) :
    read greek text = Laurent.read greek text := by
  rw [read, Laurent.read, Laurent.ofChars]
  cases parsed : Formula.ofChars? text.toList with
  | none => rfl
  | some f => exact lower_eq (range f parsed)

/-- As long as no part of a formula leaves the range, the formula and all its parts are lowered as
with unbounded degrees: to an expression with the values of the formula, or to nothing when a part
is at fault, and then with the kind of such a fault. -/
theorem lowering_in_range (greek : GreekNames) (f : Formula) (range : f.StaysInRange greek) :
    (∀ g ∈ f.subformulas, lower greek g = g.toLaurent greek) ∧
    (∀ e, lower greek f = .ok e →
      (∀ m ∈ e.terms, ∀ p ∈ m.powers, 0 < p.degree) ∧
      ∀ σ, f.value? greek σ = some (valueUnder σ e.polynomial)) ∧
    (∀ failure, lower greek f = .error failure →
      ∃ g ∈ f.subformulas, Faulty greek failure.kind g) ∧
    (∀ kind, ∀ g ∈ f.subformulas, Faulty greek kind g →
      ∃ failure, lower greek f = .error failure) ∧
    (∀ whole fraction digits places, Token.numeral whole fraction = .number digits places →
      ∀ σ, (Formula.number digits places).value? greek σ = some (Nat.ofDigitChars 10 whole 0 +
        Nat.ofDigitChars 10 fraction 0 / 10 ^ fraction.length : ℚ)) := by
  rw [lower_eq range]
  exact ⟨fun g part => lower_eq (range.part part), f.toLaurent_computes greek⟩

/-- Six by a difference that vanishes and two. -/
def sixByCancelled : Formula :=
  .div (.number 6 0) (.add (.sub (.name "x") (.name "x")) (.number 2 0))

/-- A quotient by a sum that is a number, a run of letters under an exponent, a quotient by a
difference that vanishes, and a number with decimal places. -/
theorem lowering_in_range_of_cancelled :
    (∃ e, lower ⟨[]⟩ sixByCancelled = .ok e ∧ ∀ σ, valueUnder σ e.polynomial = 3) ∧
    (∃ e, lower ⟨[]⟩ (.pow (.name "xy") (.number 2 0)) = .ok e ∧
      ∀ σ, valueUnder σ e.polynomial = σ "x" * σ "y" ^ 2) ∧
    (∃ failure, lower ⟨[]⟩ (.div (.name "x") (.sub (.name "x") (.name "x"))) = .error failure) ∧
    (∀ σ, (Formula.number 1225 2).value? ⟨[]⟩ σ = some (12 + 25 / 10 ^ 2 : ℚ)) := by
  obtain ⟨-, quotient, -, -, numeral⟩ :=
    lowering_in_range ⟨[]⟩ sixByCancelled (by decide +kernel)
  obtain ⟨-, power, -⟩ :=
    lowering_in_range ⟨[]⟩ (.pow (.name "xy") (.number 2 0)) (by decide +kernel)
  obtain ⟨-, -, -, failed, -⟩ :=
    lowering_in_range ⟨[]⟩ (.div (.name "x") (.sub (.name "x") (.name "x"))) (by decide +kernel)
  have three : lower ⟨[]⟩ sixByCancelled = .ok (.const (.ofInt 3)) := by decide +kernel
  have square : lower ⟨[]⟩ (.pow (.name "xy") (.number 2 0)) =
      .ok ⟨[⟨.one, [⟨"y", 2⟩, ⟨"x", 1⟩]⟩], .zero⟩ := by decide +kernel
  have zero : Formula.toLaurent ⟨[]⟩ (.sub (.name "x") (.name "x")) = .ok .zero := by decide +kernel
  refine ⟨⟨_, three, fun σ => ?_⟩, ⟨_, square, fun σ => ?_⟩, ?_, fun σ => ?_⟩
  · have value : sixByCancelled.value? ⟨[]⟩ σ = some 3 := by norm_num [sixByCancelled, Formula.value?]
    exact Option.some.inj (((quotient _ three).2 σ).symm.trans value)
  · have value : (Formula.pow (.name "xy") (.number 2 0)).value? ⟨[]⟩ σ =
        some (σ "x" * σ "y" ^ 2) := by
      have exponent : natural? 2 = some 2 := natural?_natCast 2
      simp [Formula.value?, exponent, GreekNames.power, GreekNames.contains, lettersPower]
    exact Option.some.inj (((power _ square).2 σ).symm.trans value)
  · exact failed .divisionByZero _ List.mem_cons_self (.zeroDivisor zero Laurent.polynomial_zero)
  · exact numeral ['1', '2'] ['2', '5'] 1225 2 (by decide) σ

/-- The symbol x under the exponent 64, again and again. -/
def tower : ℕ → Formula
  | 0 => .name "x"
  | n + 1 => .pow (tower n) (.number 64 0)

/-- A power of a formula that is no run of letters has the power of its residue. -/
theorem lower_pow {g : Formula} {e d : Laurent} {n : ℕ} (low : n ≤ 64)
    (whole : f.lastLetter? greek = none) (built : lower greek f = .ok e)
    (raised : lower greek g = .ok d) (natural : exponent? d = some n) :
    ∃ h, lower greek (.pow f g) = .ok h ∧ h.wrapped = h ∧
      residue h.polynomial = residue e.polynomial ^ n := by
  refine ⟨finish true (repeatMul true e n), ?_, Laurent.wrapped_wrapped _, ?_⟩
  · rw [← powWith_of_le true e low, lower, raised, built, whole]
    simp only [bind, Except.bind, natural]
  · rw [residue_finish, residue_repeatMul]

theorem lastLetter?_tower (n : ℕ) : (tower n).lastLetter? ⟨[]⟩ = none := by
  cases n with
  | zero => decide
  | succ => rfl

theorem lower_tower (n : ℕ) : ∃ e, lower ⟨[]⟩ (tower n) = .ok e ∧
    residue e.polynomial = residue (LaurentRing.symbol "x") ^ 64 ^ n := by
  induction n with
  | zero =>
    refine ⟨.symbol "x", by decide +kernel, ?_⟩
    rw [Laurent.polynomial_symbol, pow_zero, pow_one]
  | succ n ih =>
    obtain ⟨e, built, value⟩ := ih
    obtain ⟨h, raised, -, power⟩ := lower_pow le_rfl (lastLetter?_tower n) built
      (g := .number 64 0) rfl (by decide +kernel)
    exact ⟨h, raised, by rw [power, value, ← pow_mul, pow_succ]⟩

/-- The eighth power of a tower of ten is x under 2 ^ 63, which is lowered to a negative degree. -/
theorem tower_wraps :
    ∃ e, lower ⟨[]⟩ (.pow (tower 10) (.number 8 0)) = .ok e ∧
      ∃ m ∈ e.terms, ∃ p ∈ m.powers, p.degree < 0 := by
  obtain ⟨e, built, value⟩ := lower_tower 10
  obtain ⟨h, raised, stored, power⟩ := lower_pow (n := 8) (by decide) (lastLetter?_tower 10) built
    (g := .number 8 0) rfl (by decide +kernel)
  have degree : (((64 ^ 10 * 8 : ℕ) : ℤ) : BitVec 64) = ((-0x8000000000000000 : ℤ) : BitVec 64) := by
    decide
  have least : h = ⟨[⟨.one, [⟨"x", -0x8000000000000000⟩]⟩], .zero⟩ := by
    have closed : Laurent.wrapped ⟨[⟨.one, [⟨"x", -0x8000000000000000⟩]⟩], .zero⟩ =
        ⟨[⟨.one, [⟨"x", -0x8000000000000000⟩]⟩], .zero⟩ := by decide +kernel
    rw [← stored, ← closed, Laurent.wrapped_eq_iff, power, value, ← pow_mul, ← map_pow,
      LaurentRing.symbol, AddMonoidAlgebra.single_pow, one_pow, Finsupp.smul_single, nsmul_one,
      residue_single, Exponents.words_single, degree, Laurent.polynomial_of_power, residue_single,
      Exponents.words_single]
  refine ⟨h, raised, ?_⟩
  rw [least]
  decide

end Lowering

end Wrapping

end ExactAlgebra
