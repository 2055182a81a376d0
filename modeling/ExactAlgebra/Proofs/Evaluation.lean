import ExactAlgebra.Laurent.Substitution
import ExactAlgebra.Proofs.Arithmetic

/-!
Substitution as evaluation. What is put in the place of each power gives a map of polynomials, and
substitution computes that map, unless some factor of a term forbids it: a zero under a negative
degree, or an expression under a degree that is negative or above 64. The first such factor decides
how it fails. Read as numbers, the map is evaluation with every bound symbol at the value of what is
bound to it, all at once.
-/
namespace ExactAlgebra

open LaurentRing

namespace LaurentRing

/-- The value with a number for each symbol. A zero under a negative degree counts as zero. -/
noncomputable def valueUnder (σ : String → ℚ) : LaurentRing →+ ℚ :=
  (Finsupp.liftAddHom fun d => AddMonoidHom.mulRight (d.prod fun s k => σ s ^ k)).comp
    AddMonoidAlgebra.coeffAddEquiv.toAddMonoidHom

variable {σ : String → ℚ}

theorem valueUnder_single (σ : String → ℚ) (d : Exponents) (c : ℚ) :
    valueUnder σ (.single d c) = c * d.prod fun s k => σ s ^ k := by
  simp [valueUnder]

theorem valueUnder_constant (σ : String → ℚ) (c : ℚ) : valueUnder σ (constant c) = c := by
  rw [constant, valueUnder_single, Finsupp.prod_zero_index, mul_one]

theorem valueUnder_mul (nonzero : ∀ s, σ s ≠ 0) (n k : LaurentRing) :
    valueUnder σ (n * k) = valueUnder σ n * valueUnder σ k := by
  induction n using AddMonoidAlgebra.induction_linear with
  | zero => simp
  | add n m hn hm => rw [add_mul, map_add, hn, hm, map_add, add_mul]
  | single d c =>
    induction k using AddMonoidAlgebra.induction_linear with
    | zero => simp
    | add n m hn hm => rw [mul_add, map_add, hn, hm, map_add, mul_add]
    | single f x =>
      have powers := Finsupp.prod_add_index' (f := d) (g := f) (h := fun s k => σ s ^ k)
        (fun s => zpow_zero (σ s)) fun s k l => zpow_add₀ (nonzero s) k l
      simp only [AddMonoidAlgebra.single_mul_single, valueUnder_single, powers]
      ring

/-- Where no symbol is zero, evaluation is a ring homomorphism. -/
noncomputable def evaluation (nonzero : ∀ s, σ s ≠ 0) : LaurentRing →+* ℚ where
  toFun := valueUnder σ
  map_zero' := map_zero _
  map_add' := map_add _
  map_one' := valueUnder_constant σ 1
  map_mul' := valueUnder_mul nonzero

end LaurentRing

namespace Bindings

/-- Each bound symbol at the value of what is bound to it, every other symbol as before. -/
noncomputable def assign (b : Bindings) (σ : String → ℚ) (s : String) : ℚ :=
  match b.lookup s with
  | none => σ s
  | some o => valueUnder σ o.polynomial

/-- What is put in the place of a power. -/
noncomputable def image (b : Bindings) (s : String) (k : ℤ) : LaurentRing :=
  match b.lookup s with
  | none => .single (Finsupp.single s k) 1
  | some o =>
    match o.scalar? with
    | some r => constant (r.value ^ k)
    | none => o.polynomial ^ k.toNat

theorem image_zero (b : Bindings) (s : String) : b.image s 0 = 1 := by
  unfold image
  split
  · rw [Finsupp.single_zero]
    rfl
  · split
    · rw [zpow_zero, constant_one]
    · simp

/-- Every power of a polynomial replaced by its image. -/
noncomputable def mapPowers (b : Bindings) : LaurentRing →+ LaurentRing :=
  (Finsupp.liftAddHom fun d =>
    (AddMonoidHom.mulRight (d.prod b.image)).comp (AddMonoidAlgebra.singleAddHom 0)).comp
      AddMonoidAlgebra.coeffAddEquiv.toAddMonoidHom

theorem mapPowers_single (b : Bindings) (d : Exponents) (c : ℚ) :
    b.mapPowers (.single d c) = constant c * d.prod b.image := by
  simp [mapPowers, constant]

theorem mapPowers_constant (b : Bindings) (c : ℚ) :
    b.mapPowers (constant c) = constant c := by
  rw [constant, mapPowers_single, Finsupp.prod_zero_index, mul_one, constant]

end Bindings

/-- What forbids putting a value in the place of a power. -/
def Power.obstacle? (b : Bindings) (p : Power) : Option FailureKind :=
  match b.lookup p.symbol with
  | none => none
  | some o =>
    match o.scalar? with
    | some r => if r.value = 0 ∧ p.degree < 0 then some .divisionByZero else none
    | none => if p.degree < 0 ∨ 64 < p.degree then some .invalidArgument else none

/-- The obstacle of the first factor that has one, in print order. -/
def Monomial.obstacle? (b : Bindings) (m : Monomial) : Option FailureKind :=
  m.normalize.powers.findSome? (·.obstacle? b)

/-- The obstacle of the first term that has one, in stored order. -/
def Laurent.obstacle? (b : Bindings) (e : Laurent) : Option FailureKind :=
  e.terms.findSome? (·.obstacle? b)

/-- Without an obstacle a computation gives the polynomial; with one it fails for that reason. -/
inductive Computes (n : LaurentRing) : Option FailureKind → Except Failure Laurent → Prop
  | value {f : Laurent} (same : f.polynomial = n) : Computes n none (.ok f)
  | failure {f : Failure} {kind : FailureKind} (cause : f.kind = kind) :
    Computes n (some kind) (.error f)

namespace Computes

variable {n k : LaurentRing} {obstacle : Option FailureKind} {result : Except Failure Laurent}

theorem map (h : Computes n obstacle result) {g : Laurent → Laurent}
    (image : ∀ f, f.polynomial = n → (g f).polynomial = k) :
    Computes k obstacle (result.map g) := by
  cases h with
  | value same => exact .value (image _ same)
  | failure cause => exact .failure cause

/-- A loop whose steps compute computes, and stops at the first obstacle. -/
theorem foldlM {α : Type} {obstacle? : α → Option FailureKind}
    {join : LaurentRing → α → LaurentRing} {step : Laurent → α → Except Failure Laurent}
    (computes : ∀ e a, Computes (join e.polynomial a) (obstacle? a) (step e a)) (list : List α)
    (e : Laurent) :
    Computes (list.foldl join e.polynomial) (list.findSome? obstacle?) (list.foldlM step e) := by
  induction list generalizing e with
  | nil => exact .value rfl
  | cons a rest ih =>
    have first := computes e a
    simp only [List.foldl_cons, List.findSome?_cons, List.foldlM_cons]
    generalize obstacle? a = o, step e a = r at first
    cases first with
    | value same =>
      rw [← same]
      exact ih _
    | failure cause => exact .failure cause

theorem exists_value (h : Computes n none result) : ∃ f, result = .ok f ∧ f.polynomial = n := by
  cases h with
  | value same => exact ⟨_, rfl, same⟩

/-- Of two computations of one polynomial, the second succeeds where no obstacle is new. -/
theorem agree {f : Laurent} {other : Option FailureKind} (h : Computes n obstacle (.ok f))
    (again : Computes n other result) (allowed : obstacle = none → other = none) :
    ∃ g, result = .ok g ∧ f.polynomial = g.polynomial := by
  cases h with
  | value same =>
    rw [allowed rfl] at again
    obtain ⟨g, answer, polynomial⟩ := again.exists_value
    exact ⟨g, answer, same.trans polynomial.symm⟩

theorem obstacle_eq_some_iff (h : Computes n obstacle result) (kind : FailureKind) :
    obstacle = some kind ↔ ∃ f, result = .error f ∧ f.kind = kind := by
  cases h with
  | value => simp
  | failure cause => simp [cause]

end Computes

theorem Ratio.pow_computes (r : Ratio) (k : ℤ) :
    Computes (constant (r.value ^ k)) (if r.value = 0 ∧ k < 0 then some .divisionByZero else none)
      (orDivisionByZero ((r.pow? k).map Laurent.const)) := by
  by_cases blocked : r.value = 0 ∧ k < 0
  · rw [if_pos blocked, pow?_of_zero blocked.1 blocked.2]
    exact .failure rfl
  · have possible : r.value = 0 → 0 ≤ k := fun zero => by
      by_contra negative
      exact blocked ⟨zero, by omega⟩
    rw [if_neg blocked, pow?_eq_some possible]
    exact .value (by simp)

/-- An expression goes under the exponents from 0 to 64, in whichever way the others fail. -/
theorem Operand.pow_computes (o : Operand) (p : Power) :
    Computes (o.polynomial ^ p.degree.toNat)
      (if p.degree < 0 ∨ 64 < p.degree then some .invalidArgument else none)
      (match naturalExponent? p.degree with
        | some n => o.toLaurent.pow n
        | none => .error (.expressionUnderPower p)) := by
  unfold naturalExponent?
  by_cases natural : 0 ≤ p.degree ∧ p.degree < 0x100000000
  · rw [if_pos natural]
    rcases le_or_gt p.degree.toNat 64 with low | high
    · rw [if_neg (by omega)]
      simp only [Laurent.pow, Laurent.powWith_of_le true o.toLaurent low]
      exact .value (by rw [Laurent.polynomial_pow, polynomial_toLaurent])
    · rw [if_pos (by omega)]
      simp only [Laurent.pow, Laurent.powWith_of_lt true o.toLaurent high]
      exact .failure rfl
  · rw [if_neg natural, if_pos (by omega)]
    exact .failure rfl

section Substitution

variable (b : Bindings)

theorem Power.substitute_computes (p : Power) :
    Computes (b.image p.symbol p.degree) (p.obstacle? b) (p.substitute b) := by
  unfold Bindings.image Power.obstacle? Power.substitute
  cases b.lookup p.symbol with
  | none => exact .value (by rw [Laurent.polynomial_ofMonomial, Monomial.polynomial_ofPower])
  | some o =>
    cases scalar : o.scalar? with
    | some r =>
      simp only [scalar]
      exact r.pow_computes p.degree
    | none =>
      simp only [scalar]
      exact o.pow_computes p

theorem Monomial.foldl_image (powers : List Power) (n : LaurentRing) :
    powers.foldl (fun n p => n * b.image p.symbol p.degree) n =
      n * (powers.map fun p => b.image p.symbol p.degree).prod := by
  induction powers generalizing n with
  | nil => simp
  | cons p rest ih => simp [ih, mul_assoc]

/-- The normal powers of a term are the points of its exponents. -/
theorem Monomial.prod_image (m : Monomial) :
    (m.normalize.powers.map fun p => b.image p.symbol p.degree).prod = m.exponents.prod b.image := by
  rw [← exponents_normalize, exponents, m.distinct_normalize.prod_total b.image_zero, List.map_map]
  rfl

theorem Monomial.substitute_computes (m : Monomial) :
    Computes (b.mapPowers m.polynomial) (m.obstacle? b) (m.substitute b) := by
  have image : b.mapPowers m.polynomial = m.normalize.powers.foldl
      (fun n p => n * b.image p.symbol p.degree) (Laurent.const m.coefficient).polynomial := by
    rw [polynomial, Bindings.mapPowers_single, foldl_image, prod_image, Laurent.polynomial_const]
  have multiply (e : Laurent) (p : Power) :
      Computes (e.polynomial * b.image p.symbol p.degree) (p.obstacle? b)
        ((p.substitute b).map e.mul) :=
    (p.substitute_computes b).map fun f same => by rw [Laurent.polynomial_mul, same]
  rw [image]
  exact Computes.foldlM multiply _ _

theorem Laurent.foldl_mapPowers (terms : List Monomial) (n : LaurentRing) :
    terms.foldl (fun n m => n + b.mapPowers m.polynomial) n =
      n + b.mapPowers (termsPolynomial terms) := by
  induction terms generalizing n with
  | nil => simp
  | cons m rest ih => simp [ih, add_assoc]

/-- Substitution computes the image of the polynomial, or fails for the first obstacle. -/
theorem Laurent.substituteWith_computes (tidy : Bool) (e : Laurent) :
    Computes (b.mapPowers e.polynomial) (e.obstacle? b) (e.substituteWith tidy b) := by
  have image : b.mapPowers e.polynomial = e.terms.foldl
      (fun n m => n + b.mapPowers m.polynomial) (const e.constant).polynomial := by
    rw [foldl_mapPowers, polynomial_const, polynomial, map_add, Bindings.mapPowers_constant,
      add_comm]
  have add (sum : Laurent) (m : Monomial) : Computes
      (sum.polynomial + b.mapPowers m.polynomial) (m.obstacle? b) (sum.addSubstituted tidy b m) :=
    (m.substitute_computes b).map fun f same => by rw [polynomial_finish, polynomial_addRaw, same]
  rw [image]
  exact (Computes.foldlM add _ _).map fun f same => by rw [polynomial_finish, same]

end Substitution

section Allowed

variable {b : Bindings}

theorem Monomial.obstacle?_eq_none_iff (m : Monomial) : m.obstacle? b = none ↔
    ∀ s, m.exponents s ≠ 0 → (Power.mk s (m.exponents s)).obstacle? b = none := by
  rw [obstacle?, List.findSome?_eq_none_iff]
  simp only [m.normal_normalize.mem_powers_iff, exponents_normalize]
  constructor
  · exact fun h s nonzero => h ⟨s, _⟩ ⟨rfl, nonzero⟩
  · rintro h ⟨s, k⟩ ⟨value, nonzero⟩
    obtain rfl : m.exponents s = k := value
    exact h s nonzero

theorem Laurent.obstacle?_eq_none_iff (e : Laurent) :
    e.obstacle? b = none ↔ ∀ m ∈ e.terms, m.obstacle? b = none :=
  List.findSome?_eq_none_iff

end Allowed

section Values

variable {b : Bindings} {σ : String → ℚ}

/-- Where nothing forbids it, the image of a power is the power of what is bound. -/
theorem Bindings.valueUnder_image (nonzero : ∀ s, σ s ≠ 0) {p : Power}
    (allowed : p.obstacle? b = none) :
    valueUnder σ (b.image p.symbol p.degree) = b.assign σ p.symbol ^ p.degree := by
  unfold Power.obstacle? at allowed
  unfold image assign
  cases bound : b.lookup p.symbol with
  | none => simp [valueUnder_single, Finsupp.prod_single_index]
  | some o =>
    cases scalar : o.scalar? with
    | some r => simp only [scalar, Operand.polynomial_of_scalar? scalar, valueUnder_constant]
    | none =>
      have natural : (p.degree.toNat : ℤ) = p.degree := by
        simp only [bound, scalar, ite_eq_right_iff, reduceCtorEq, imp_false] at allowed
        omega
      have power := map_pow (evaluation nonzero) o.polynomial p.degree.toNat
      rw [← zpow_natCast, natural] at power
      simp only [scalar]
      exact power

theorem Monomial.valueUnder_mapPowers (nonzero : ∀ s, σ s ≠ 0) {m : Monomial}
    (allowed : m.obstacle? b = none) :
    valueUnder σ (b.mapPowers m.polynomial) = valueUnder (b.assign σ) m.polynomial := by
  have factors : valueUnder σ (m.exponents.prod b.image) =
      m.exponents.prod fun s k => b.assign σ s ^ k := by
    have product := map_finsuppProd (evaluation nonzero) m.exponents b.image
    refine product.trans (Finsupp.prod_congr fun s occurs => ?_)
    have occurs := Finsupp.mem_support_iff.mp occurs
    exact Bindings.valueUnder_image nonzero (m.obstacle?_eq_none_iff.mp allowed s occurs)
  rw [polynomial, Bindings.mapPowers_single, valueUnder_mul nonzero, valueUnder_constant, factors,
    valueUnder_single]

/-- Without an obstacle, the image of the polynomial has the value of the polynomial with every
bound symbol at the value of what is bound to it. -/
theorem Laurent.valueUnder_mapPowers (nonzero : ∀ s, σ s ≠ 0) {e : Laurent}
    (allowed : e.obstacle? b = none) :
    valueUnder σ (b.mapPowers e.polynomial) = valueUnder (b.assign σ) e.polynomial := by
  have sum (terms : List Monomial) (allowed : ∀ m ∈ terms, m.obstacle? b = none) :
      valueUnder σ (b.mapPowers (termsPolynomial terms)) =
        valueUnder (b.assign σ) (termsPolynomial terms) := by
    induction terms with
    | nil => simp
    | cons m rest ih =>
      obtain ⟨first, others⟩ := List.forall_mem_cons.mp allowed
      simp only [termsPolynomial_cons, map_add, ih others,
        Monomial.valueUnder_mapPowers nonzero first]
  simp only [polynomial, map_add, Bindings.mapPowers_constant, valueUnder_constant,
    sum e.terms (e.obstacle?_eq_none_iff.mp allowed)]

end Values

namespace Laurent

section Covering

variable {b : Bindings} {e f : Laurent}

/-- One polynomial, and no term on the right without a term of its exponents on the left. -/
structure Covers (e f : Laurent) : Prop where
  same : e.polynomial = f.polynomial
  terms : ∀ m ∈ f.terms, ∃ n ∈ e.terms, n.exponents = m.exponents

theorem Covers.refl (e : Laurent) : e.Covers e :=
  ⟨rfl, fun m member => ⟨m, member, rfl⟩⟩

/-- Every term of a normal form has a coefficient in the polynomial, so it was written down. -/
theorem Covers.of_normal (normal : f.Normal) (same : e.polynomial = f.polynomial) :
    e.Covers f := by
  refine ⟨same, fun m member => ?_⟩
  have counts : e.polynomial.coeff m.exponents ≠ 0 := by
    rw [same, normal.coeff_of_mem member]
    exact (normal.terms m member).2.2
  exact exists_term (normal.exponents_ne_zero member) counts

theorem covers_normalize (e : Laurent) : e.Covers e.normalize :=
  .of_normal e.normalize_normal e.polynomial_normalize.symm

/-- An obstacle in a term is one in every term of the same exponents. -/
theorem Covers.obstacle?_eq_none (h : e.Covers f) (allowed : e.obstacle? b = none) :
    f.obstacle? b = none := by
  rw [obstacle?_eq_none_iff] at allowed ⊢
  intro m member
  obtain ⟨n, hn, exponents⟩ := h.terms m member
  have := n.obstacle?_eq_none_iff.mp (allowed n hn)
  rw [exponents] at this
  exact m.obstacle?_eq_none_iff.mpr this

theorem substituteWith_normal {f : Laurent} (answer : e.substituteWith true b = .ok f) :
    f.Normal := by
  unfold substituteWith at answer
  cases sum : e.terms.foldlM (addSubstituted true b) (const e.constant) with
  | error failure =>
    rw [sum] at answer
    cases answer
  | ok g =>
    rw [sum] at answer
    cases answer
    exact normalize_normal g

theorem Covers.substituteWith {g : Laurent} {tidy : Bool} (h : e.Covers f)
    (answer : e.substituteWith tidy b = .ok g) (other : Bool) :
    ∃ k, f.substituteWith other b = .ok k ∧ g.polynomial = k.polynomial := by
  have first := substituteWith_computes b tidy e
  have second := substituteWith_computes b other f
  rw [answer] at first
  rw [← h.same] at second
  exact first.agree second h.obstacle?_eq_none

end Covering

end Laurent

section Alike

/-- Operands with one polynomial and one number behind them. -/
structure Operand.Alike (o q : Operand) : Prop where
  polynomial : o.polynomial = q.polynomial
  scalar : o.scalar? = q.scalar?

def Bindings.Alike (b c : Bindings) : Prop :=
  ∀ s, Option.Rel Operand.Alike (b.lookup s) (c.lookup s)

variable {b c : Bindings}

theorem Bindings.Alike.mapPowers_eq (alike : b.Alike c) : b.mapPowers = c.mapPowers := by
  have image : b.image = c.image := by
    funext s k
    have bound := alike s
    unfold Bindings.image
    generalize b.lookup s = x, c.lookup s = y at bound
    cases bound with
    | none => rfl
    | some alike => simp only [alike.scalar, alike.polynomial]
  rw [mapPowers, mapPowers, image]

theorem Bindings.Alike.obstacle?_eq (alike : b.Alike c) (e : Laurent) :
    e.obstacle? b = e.obstacle? c := by
  have power : Power.obstacle? b = Power.obstacle? c := by
    funext p
    have bound := alike p.symbol
    unfold Power.obstacle?
    generalize b.lookup p.symbol = x, c.lookup p.symbol = y at bound
    cases bound with
    | none => rfl
    | some alike => simp only [alike.scalar]
  unfold Laurent.obstacle? Monomial.obstacle?
  rw [power]

end Alike

/-- Two outcomes: expressions of one polynomial, or failures of one kind. -/
inductive Agree : Except Failure Laurent → Except Failure Laurent → Prop
  | values {e f : Laurent} (same : e.polynomial = f.polynomial) : Agree (.ok e) (.ok f)
  | failures {f g : Failure} (same : f.kind = g.kind) : Agree (.error f) (.error g)

theorem Bindings.Alike.substituteWith_agree {b c : Bindings} (alike : b.Alike c) (e : Laurent)
    (tidy other : Bool) : Agree (e.substituteWith tidy b) (e.substituteWith other c) := by
  have first := e.substituteWith_computes b tidy
  have second := e.substituteWith_computes c other
  rw [← alike.mapPowers_eq, ← alike.obstacle?_eq] at second
  generalize e.obstacle? b = obstacle, e.substituteWith tidy b = left at first second
  cases first with
  | value same =>
    obtain ⟨f, answer, value⟩ := second.exists_value
    rw [answer]
    exact .values (same.trans value.symm)
  | failure cause =>
    obtain ⟨f, answer, again⟩ := (second.obstacle_eq_some_iff _).mp rfl
    rw [answer]
    exact .failures (cause.trans again.symm)

end ExactAlgebra
