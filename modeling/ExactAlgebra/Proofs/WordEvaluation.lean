import ExactAlgebra.Proofs.Evaluation
import ExactAlgebra.Proofs.Monomials
import ExactAlgebra.Proofs.WordArithmetic

/-!
Substitution with degrees of 64 bits. It goes the way of the substitution with unbounded degrees in
which terms and operands were multiplied out in words first: both fail for the same reasons, and
their results have the same residues. So it is evaluation at the values of what is bound, with the
same causes of failure, as long as no degree on the way leaves the range.
-/
namespace ExactAlgebra

open LaurentRing

/-- Two outcomes: expressions of one residue, or failures of one kind. -/
inductive AgreeInWords : Except Failure Laurent → Except Failure Laurent → Prop
  | values {e f : Laurent} (same : residue e.polynomial = residue f.polynomial) :
    AgreeInWords (.ok e) (.ok f)
  | failures {f g : Failure} (same : f.kind = g.kind) : AgreeInWords (.error f) (.error g)

namespace AgreeInWords

variable {x y z : Except Failure Laurent} {e f : Laurent}

theorem of_agree (h : Agree x y) : AgreeInWords x y := by
  cases h with
  | values same => exact .values (congrArg residue same)
  | failures same => exact .failures same

theorem symm (h : AgreeInWords x y) : AgreeInWords y x := by
  cases h with
  | values same => exact .values same.symm
  | failures same => exact .failures same.symm

theorem trans (h : AgreeInWords x y) (k : AgreeInWords y z) : AgreeInWords x z := by
  cases h with
  | values same =>
    cases k with
    | values again => exact .values (same.trans again)
  | failures same =>
    cases k with
    | failures again => exact .failures (same.trans again)

theorem exists_ok (h : AgreeInWords (.ok e) y) :
    ∃ f, y = .ok f ∧ residue e.polynomial = residue f.polynomial := by
  cases h with
  | values same => exact ⟨_, rfl, same⟩

theorem error_iff (h : AgreeInWords x y) (kind : FailureKind) :
    (∃ f, x = .error f ∧ f.kind = kind) ↔ ∃ f, y = .error f ∧ f.kind = kind := by
  cases h with
  | values => simp
  | failures same => simp [same]

theorem map (h : AgreeInWords x y) {g k : Laurent → Laurent}
    (image : ∀ e f, residue e.polynomial = residue f.polynomial →
      residue (g e).polynomial = residue (k f).polynomial) :
    AgreeInWords (x.map g) (y.map k) := by
  cases h with
  | values same => exact .values (image _ _ same)
  | failures same => exact .failures same

/-- Loops over one list whose steps agree. -/
theorem foldlM {α : Type} {step other : Laurent → α → Except Failure Laurent} {list : List α}
    (agree : ∀ a ∈ list, ∀ e f, residue e.polynomial = residue f.polynomial →
      AgreeInWords (step e a) (other f a))
    (start : residue e.polynomial = residue f.polynomial) :
    AgreeInWords (list.foldlM step e) (list.foldlM other f) := by
  induction list generalizing e f with
  | nil => exact .values start
  | cons a rest ih =>
    obtain ⟨first, others⟩ := List.forall_mem_cons.mp agree
    have head := first e f start
    simp only [List.foldlM_cons]
    generalize step e a = x, other f a = y at head
    cases head with
    | values same => exact ih others same
    | failures same => exact .failures same

end AgreeInWords

/-- What holds at the start and after every step holds of the outcome of a loop. -/
theorem foldlM_invariant {α : Type} {P : Laurent → Prop}
    {step : Laurent → α → Except Failure Laurent} {list : List α}
    (keeps : ∀ a ∈ list, ∀ e f, P e → step e a = .ok f → P f) {e f : Laurent} (start : P e)
    (answer : list.foldlM step e = .ok f) : P f := by
  induction list generalizing e with
  | nil =>
    cases answer
    exact start
  | cons a rest ih =>
    obtain ⟨first, others⟩ := List.forall_mem_cons.mp keeps
    obtain ⟨g, head, tail⟩ := exists_of_bind answer
    exact ih others (first e g start head) tail

section Forms

variable {b : Bindings} {e : Laurent}

theorem Monomial.substitute_normalize (m : Monomial) : m.normalize.substitute b = m.substitute b := by
  have coefficient : Laurent.const m.normalize.coefficient = Laurent.const m.coefficient := by
    simp only [Laurent.const, normalize, Ratio.reduce, Ratio.value_ofRat]
  rw [substitute, m.normal_normalize.normalize_eq, coefficient, substitute]

/-- Terms in range are multiplied out in words as they are without. -/
theorem Laurent.substituteWith_wrapTerms (fits : ∀ m ∈ e.terms, m.InRange) (tidy : Bool) :
    e.wrapTerms.substituteWith tidy b = e.substituteWith tidy b := by
  have terms : e.terms.map (·.wrapped) = e.terms.map (·.normalize) :=
    List.map_congr_left fun m member => Monomial.wrapped_eq (fits m member)
  have steps (sum : Laurent) (m : Monomial) :
      addSubstituted tidy b sum m.normalize = addSubstituted tidy b sum m := by
    rw [addSubstituted, Monomial.substitute_normalize, addSubstituted]
  simp only [substituteWith, wrapTerms, terms, List.foldlM_map, steps]

theorem Laurent.wrapTerms_eq
    (stored : ∀ m ∈ e.terms, m.Normal ∧ m.exponents.InRange) : e.wrapTerms = e := by
  have terms : e.terms.map (·.wrapped) = e.terms := by
    rw [List.map_congr_left fun m member => ?_, List.map_id']
    obtain ⟨normal, fits⟩ := stored m member
    rw [Monomial.wrapped_eq (m.inRange_iff.mpr fits), normal.normalize_eq]
  rw [wrapTerms, terms]

theorem Laurent.wrapTerms_wrapped (e : Laurent) : e.wrapped.wrapTerms = e.wrapped := by
  refine wrapTerms_eq fun m member => ⟨(e.wrapped_normal.terms m member).1, ?_⟩
  apply e.wrapTerms_inRange
  exact coeff_ne_zero_of_mem_normalize member

end Forms

def Bindings.wrapTerms (b : Bindings) : Bindings := b.map fun entry => (entry.1, entry.2.wrapTerms)

theorem Bindings.lookup_wrapTerms (b : Bindings) (s : String) :
    b.wrapTerms.lookup s = (b.lookup s).map Operand.wrapTerms := by
  induction b with
  | nil => rfl
  | cons entry rest ih =>
    obtain ⟨t, o⟩ := entry
    simp only [wrapTerms, List.map_cons, List.lookup_cons] at ih ⊢
    split
    · rfl
    · exact ih

namespace Wrapping

section Agreement

variable (b : Bindings)

theorem powWith_agrees {e f : Laurent} (same : residue e.polynomial = residue f.polynomial)
    (tidy other : Bool) (n : ℕ) : AgreeInWords (powWith tidy e n) (f.powWith other n) := by
  rcases le_or_gt n 64 with low | high
  · rw [powWith_of_le tidy e low, Laurent.powWith_of_le other f low]
    refine .values ?_
    rw [residue_finish, residue_repeatMul, Laurent.polynomial_pow, map_pow, same]
  · rw [powWith_of_lt tidy e high, Laurent.powWith_of_lt other f high]
    exact .failures rfl

theorem substitutePower_agrees (p : Power) :
    AgreeInWords (substitutePower b p) (p.substitute b.wrapTerms) := by
  unfold substitutePower Power.substitute
  rw [Bindings.lookup_wrapTerms]
  cases b.lookup p.symbol with
  | none =>
    refine .values ?_
    rw [ofMonomial, Laurent.residue_wrapped, Laurent.polynomial_of_term,
      Laurent.polynomial_ofMonomial]
  | some o =>
    have same : residue (toLaurent o).polynomial = residue o.wrapTerms.toLaurent.polynomial := by
      rw [residue_toLaurent, Operand.polynomial_toLaurent, Operand.residue_wrapTerms]
    simp only [scalar?, Option.map_some]
    cases o.wrapTerms.scalar? with
    | some r =>
      dsimp only
      cases r.pow? p.degree with
      | none => exact .failures rfl
      | some q => exact .values rfl
    | none =>
      dsimp only
      cases naturalExponent? p.degree with
      | some n => exact powWith_agrees same true true n
      | none => exact .failures rfl

theorem substituteMonomial_agrees (m : Monomial) :
    AgreeInWords (substituteMonomial b m) (m.wrapped.substitute b.wrapTerms) := by
  rw [substituteMonomial, Monomial.substitute, m.wrapped_normal.normalize_eq]
  refine AgreeInWords.foldlM (fun p _ e f same => ?_) ?_
  · refine (substitutePower_agrees b p).map fun g k power => ?_
    rw [residue_mul, Laurent.polynomial_mul, map_mul, same, power]
  · simp [Monomial.wrapped]

/-- Substitution in words goes the way of the substitution into what was multiplied out. -/
theorem substituteWith_agrees (tidy other : Bool) (e : Laurent) :
    AgreeInWords (substituteWith tidy b e) (e.wrapTerms.substituteWith other b.wrapTerms) := by
  simp only [substituteWith, Laurent.substituteWith, Laurent.wrapTerms, List.foldlM_map]
  refine (AgreeInWords.foldlM (fun m _ sum total same => ?_) rfl).map fun g k final => ?_
  · refine (substituteMonomial_agrees b m).map fun g k value => ?_
    rw [residue_finish, Laurent.polynomial_addRaw, Laurent.polynomial_finish,
      Laurent.polynomial_addRaw, map_add, map_add, same, value]
  · rw [residue_finish, Laurent.polynomial_finish, final]

end Agreement

section Results

variable {b : Bindings} {e f : Laurent} {tidy : Bool}

theorem finish_inRange (fits : e.polynomial.InRange) (tidy : Bool) :
    (finish tidy e).polynomial.InRange := by
  cases tidy with
  | false => exact fits
  | true => exact e.wrapped_inRange

theorem substituteMonomial_inRange {m : Monomial} (answer : substituteMonomial b m = .ok f) :
    f.polynomial.InRange := by
  refine foldlM_invariant (P := fun e => e.polynomial.InRange) (fun p _ e g _ step => ?_) ?_ answer
  · obtain ⟨k, -, rfl⟩ := exists_of_map step
    exact Laurent.wrapped_inRange _
  · rw [Laurent.polynomial_const]
    exact constant_inRange _

/-- What substitution gives is in range, normalized or not. -/
theorem substituteWith_inRange (answer : substituteWith tidy b e = .ok f) :
    f.polynomial.InRange := by
  obtain ⟨sum, added, rfl⟩ := exists_of_map answer
  refine finish_inRange ?_ tidy
  refine foldlM_invariant (P := fun e => e.polynomial.InRange) (fun m _ e g fits step => ?_) ?_ added
  · obtain ⟨value, substituted, rfl⟩ := exists_of_map step
    refine finish_inRange ?_ tidy
    rw [Laurent.polynomial_addRaw]
    exact fits.add (substituteMonomial_inRange substituted)
  · rw [Laurent.polynomial_const]
    exact constant_inRange _

theorem substitute_wrapped (answer : substitute b e = .ok f) : f.wrapped = f := by
  obtain ⟨sum, -, rfl⟩ := exists_of_map answer
  exact sum.wrapped_wrapped

/-- Normalizing first changes nothing, also where degrees wrap. -/
theorem substitute_of_wrapped (answer : substitute b e = .ok f) :
    substitute b e.wrapped = .ok f := by
  have first := substituteWith_agrees b true true e
  rw [← substitute, answer] at first
  obtain ⟨g, unwrapped, value⟩ := first.exists_ok
  -- there normalizing keeps success, and from there it goes back into words
  obtain ⟨k, normalized, same⟩ := e.wrapTerms.covers_normalize.substituteWith unwrapped true
  have second := substituteWith_agrees b true true e.wrapped
  rw [e.wrapTerms_wrapped, Laurent.wrapped, normalized] at second
  obtain ⟨h, again, final⟩ := second.symm.exists_ok
  rw [← Laurent.wrapped, ← substitute] at again
  rw [again, Except.ok.injEq, ← substitute_wrapped again, ← substitute_wrapped answer,
    Laurent.wrapped_eq_iff, value, same, final]

end Results

end Wrapping

section Range

/-- An expression that a computation gives, if it gives one, is in range. -/
def OutcomeInRange : Except Failure Laurent → Prop
  | .ok e => e.InRange
  | .error _ => True

instance : DecidablePred OutcomeInRange
  | .ok e => inferInstanceAs (Decidable e.InRange)
  | .error _ => inferInstanceAs (Decidable True)

/-- No degree leaves the range on the way: those of the terms, of what is bound, and of what comes
out of each term. -/
structure Laurent.SubstitutesInRange (b : Bindings) (e : Laurent) : Prop where
  terms : ∀ m ∈ e.terms, m.InRange
  bound : ∀ entry ∈ b, entry.2.InRange
  images : ∀ m ∈ e.terms, OutcomeInRange (m.substitute b)

variable {b : Bindings} {e : Laurent}

theorem Operand.alike_wrapTerms {o : Operand} (fits : o.InRange) : o.wrapTerms.Alike o :=
  ⟨polynomial_wrapTerms fits, Wrapping.scalar?_eq fits⟩

theorem Bindings.alike_wrapTerms (fits : ∀ entry ∈ b, entry.2.InRange) :
    b.wrapTerms.Alike b := by
  intro s
  induction b with
  | nil => exact .none
  | cons entry rest ih =>
    obtain ⟨first, others⟩ := List.forall_mem_cons.mp fits
    obtain ⟨t, o⟩ := entry
    simp only [wrapTerms, List.map_cons, List.lookup_cons] at ih ⊢
    split
    · exact .some (Operand.alike_wrapTerms first)
    · exact ih others

namespace Laurent.SubstitutesInRange

/-- In range, substitution in words goes the way of the one with unbounded degrees. -/
theorem agrees (range : e.SubstitutesInRange b) (tidy : Bool) :
    AgreeInWords (Wrapping.substituteWith tidy b e) (e.substituteWith tidy b) := by
  have words := Wrapping.substituteWith_agrees b tidy tidy e
  rw [substituteWith_wrapTerms range.terms] at words
  exact words.trans (.of_agree ((Bindings.alike_wrapTerms range.bound).substituteWith_agree e _ _))

/-- The image of the polynomial is in range when that of every term is. -/
theorem mapPowers_inRange (range : e.SubstitutesInRange b) (allowed : e.obstacle? b = none) :
    (b.mapPowers e.polynomial).InRange := by
  have sum (terms : List Monomial)
      (images : ∀ m ∈ terms, OutcomeInRange (m.substitute b))
      (allowed : ∀ m ∈ terms, m.obstacle? b = none) :
      (b.mapPowers (termsPolynomial terms)).InRange := by
    induction terms with
    | nil =>
      rw [termsPolynomial_nil, map_zero]
      exact LaurentRing.zero_inRange
    | cons m rest ih =>
      obtain ⟨image, images⟩ := List.forall_mem_cons.mp images
      obtain ⟨first, others⟩ := List.forall_mem_cons.mp allowed
      have computes := m.substitute_computes b
      rw [first] at computes
      obtain ⟨f, answer, value⟩ := computes.exists_value
      rw [answer, OutcomeInRange, inRange_iff, value] at image
      rw [termsPolynomial_cons, map_add]
      exact image.add (ih images others)
  rw [polynomial, map_add, Bindings.mapPowers_constant]
  exact (sum e.terms range.images (e.obstacle?_eq_none_iff.mp allowed)).add (constant_inRange _)

theorem exists_value (range : e.SubstitutesInRange b) (allowed : e.obstacle? b = none)
    (tidy : Bool) : ∃ f, Wrapping.substituteWith tidy b e = .ok f ∧
      f.polynomial = b.mapPowers e.polynomial := by
  have computes := e.substituteWith_computes b tidy
  rw [allowed] at computes
  obtain ⟨g, exactly, value⟩ := computes.exists_value
  have agrees := (range.agrees tidy).symm
  rw [exactly] at agrees
  obtain ⟨f, answer, same⟩ := agrees.exists_ok
  refine ⟨f, answer, ?_⟩
  -- both are in range: the result because it was multiplied out in words, the image by hypothesis
  apply (Wrapping.substituteWith_inRange answer).eq_of_residue_eq (range.mapPowers_inRange allowed)
  rw [← same, value]

end Laurent.SubstitutesInRange

end Range

namespace Wrapping

section Meaning

variable (tidy : Bool) (b : Bindings) (e : Laurent)

/-- In range, substitution in words fails exactly for the first obstacle, and its result has the
value of the expression with all bound symbols at the values of what is bound to them at once.
Normalizing first changes nothing, in range or not. -/
theorem substitution_in_range :
    (e.SubstitutesInRange b →
      (∀ kind, e.obstacle? b = some kind ↔
        ∃ f, substituteWith tidy b e = .error f ∧ f.kind = kind) ∧
      (e.obstacle? b = none → ∃ f, substituteWith tidy b e = .ok f ∧
        ∀ σ, (∀ s, σ s ≠ 0) → valueUnder σ f.polynomial = valueUnder (b.assign σ) e.polynomial)) ∧
    (∀ f, substitute b e = .ok f → substitute b e.wrapped = .ok f) := by
  refine ⟨fun range => ⟨fun kind => ?_, fun allowed => ?_⟩, fun f => substitute_of_wrapped⟩
  · rw [(range.agrees tidy).error_iff]
    exact (e.substituteWith_computes b tidy).obstacle_eq_some_iff kind
  · obtain ⟨f, answer, image⟩ := range.exists_value allowed tidy
    refine ⟨f, answer, fun σ nonzero => ?_⟩
    rw [image, Laurent.valueUnder_mapPowers nonzero allowed]

/-- The quotient x²/y. -/
def squareOver : Laurent := ⟨[⟨.one, [⟨"x", 2⟩, ⟨"y", -1⟩]⟩], .zero⟩

/-- Zero for y in x²/y; y for x with two for y, valued where every symbol is three; and the same
bindings after normalizing. -/
theorem substitution_in_range_of_squareOver :
    (∃ f, substituteWith false [("y", .integer 0)] squareOver = .error f ∧
      f.kind = .divisionByZero) ∧
    (∃ f, substituteWith false [("x", .symbol "y"), ("y", .integer 2)] squareOver = .ok f ∧
      valueUnder (fun _ => 3) f.polynomial =
        valueUnder (Bindings.assign [("x", .symbol "y"), ("y", .integer 2)] fun _ => 3)
          squareOver.polynomial) ∧
    substitute [("x", .symbol "y"), ("y", .integer 2)] squareOver.wrapped =
      .ok ⟨[⟨.ofRat (1 / 2), [⟨"y", 2⟩]⟩], .zero⟩ := by
  obtain ⟨failure, -⟩ := substitution_in_range false [("y", .integer 0)] squareOver
  obtain ⟨value, again⟩ :=
    substitution_in_range false [("x", .symbol "y"), ("y", .integer 2)] squareOver
  obtain ⟨f, answer, meaning⟩ := (value ⟨by decide +kernel, by decide +kernel,
    by decide +kernel⟩).2 (by decide +kernel)
  refine ⟨((failure ⟨by decide +kernel, by decide +kernel, by decide +kernel⟩).1 _).mp
    (by decide +kernel), ⟨f, answer, ?_⟩, again _ (by decide +kernel)⟩
  exact meaning _ fun _ => by norm_num

/-- The symbol y under the exponent 2 ^ 60. -/
def highDegree : Laurent := ⟨[⟨.one, [⟨"y", 0x1000000000000000⟩]⟩], .zero⟩

/-- The eighth power of x. -/
def eighthPower : Laurent := ⟨[⟨.one, [⟨"x", 8⟩]⟩], .zero⟩

theorem valueUnder_of_power (σ : String → ℚ) (p : Power) :
    valueUnder σ (Laurent.polynomial ⟨[⟨.one, [p]⟩], .zero⟩) = σ p.symbol ^ p.degree := by
  rw [Laurent.polynomial_of_power, valueUnder_single, one_mul,
    Finsupp.prod_single_index (zpow_zero _)]

/-- With y under 2 ^ 60 for x, nothing forbids x⁸, but what comes out is y under -2 ^ 63, which is less
than one where y is two. -/
theorem substitution_wraps :
    eighthPower.obstacle? [("x", .laurent highDegree)] = none ∧
    ∃ f, substitute [("x", .laurent highDegree)] eighthPower = .ok f ∧
      valueUnder (fun _ => 2) f.polynomial ≠
        valueUnder (Bindings.assign [("x", .laurent highDegree)] fun _ => 2)
          eighthPower.polynomial := by
  refine ⟨by decide +kernel, ⟨[⟨.one, [⟨"y", -0x8000000000000000⟩]⟩], .zero⟩, by decide +kernel, ?_⟩
  have low : (2 : ℚ) ^ (-0x8000000000000000 : ℤ) < 1 := zpow_lt_one_of_neg₀ one_lt_two (by decide)
  have bound : Bindings.assign [("x", .laurent highDegree)] (fun _ => 2) "x" =
      (2 : ℚ) ^ (0x1000000000000000 : ℤ) := valueUnder_of_power _ _
  have high : 1 ≤ ((2 : ℚ) ^ (0x1000000000000000 : ℤ)) ^ (8 : ℤ) :=
    one_le_zpow₀ (one_le_zpow₀ one_le_two (by decide)) (by decide)
  -- the two powers of two are too large to evaluate, so they are compared with one
  rw [valueUnder_of_power, eighthPower, valueUnder_of_power, bound]
  exact (low.trans_le high).ne

end Meaning

end Wrapping

end ExactAlgebra
