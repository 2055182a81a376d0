import ExactAlgebra.Proofs.WordEvaluation

/-!
Programs of arithmetic and substitution. A program computes one expression after the other, each
from earlier ones, with a flag for each step that says whether its result is normalized. Degrees are
words and wrap. The flags never change what a run means: the results have the same normal forms, and
a run with every result normalized gets at least as far. Without substitution all runs stop at the
same step for the same reason. A build that checks its sums gives the results of such a run up to
the first sum that leaves the range, which a run without normalization may put off.
-/
namespace ExactAlgebra

open LaurentRing

/-- An operand of a step: one that is given, or an expression computed before. -/
inductive Argument (n : ℕ)
  | given (o : Operand)
  | earlier (k : Fin n)
deriving DecidableEq

/-- One operation on expressions computed before. -/
inductive Step (n : ℕ)
  | add (k : Fin n) (a : Argument n)
  | sub (k : Fin n) (a : Argument n)
  | mul (k : Fin n) (a : Argument n)
  | div (k : Fin n) (a : Argument n)
  | pow (k : Fin n) (exponent : ℕ)
  | neg (k : Fin n)
  | substitute (k : Fin n) (bound : List (String × Argument n))
deriving DecidableEq

/-- Steps on a growing number of expressions. -/
inductive Program : ℕ → Type
  | done {n : ℕ} : Program n
  | next {n : ℕ} (step : Step n) (rest : Program (n + 1)) : Program n

/-- What the steps of a run gave, in order, and the failure that ended it. -/
structure Run where
  results : List Laurent
  failure : Option Failure
deriving DecidableEq

section Runs

variable {n : ℕ}

def Argument.operand (values : Fin n → Laurent) : Argument n → Operand
  | given o => o
  | earlier k => .laurent (values k)

def Argument.bindings (values : Fin n → Laurent) (bound : List (String × Argument n)) : Bindings :=
  bound.map fun entry => (entry.1, entry.2.operand values)

def Step.apply (tidy : Bool) (values : Fin n → Laurent) : Step n → Except Failure Laurent
  | add k a => .ok (Wrapping.addWith tidy (values k) (a.operand values))
  | sub k a => .ok (Wrapping.subWith tidy (values k) (a.operand values))
  | mul k a => .ok (Wrapping.mulWith tidy (values k) (a.operand values))
  | div k a => Wrapping.divWith tidy (values k) (a.operand values)
  | pow k exponent => Wrapping.powWith tidy (values k) exponent
  | neg k => .ok (values k).neg
  | substitute k bound =>
    Wrapping.substituteWith tidy (Argument.bindings values bound) (values k)

def Step.isSubstitution : Step n → Bool
  | substitute _ _ => true
  | _ => false

/-- The flag of a step is looked up by the number of expressions before it. -/
def Program.run (tidy : ℕ → Bool) {n : ℕ} : Program n → (Fin n → Laurent) → Run
  | done, _ => ⟨[], none⟩
  | next step rest, values =>
    match step.apply (tidy n) values with
    | .error f => ⟨[], some f⟩
    | .ok e =>
      let later := rest.run tidy (Fin.snoc values e)
      ⟨e :: later.results, later.failure⟩

def Program.substitutionFree {n : ℕ} : Program n → Bool
  | done => true
  | next step rest => !step.isSubstitution && rest.substitutionFree

end Runs

section Operands

variable {n : ℕ} {v w : Fin n → Laurent}

theorem Argument.operand_alike
    (same : ∀ k, residue (v k).polynomial = residue (w k).polynomial) (a : Argument n) :
    (a.operand v).wrapTerms.Alike (a.operand w).wrapTerms := by
  cases a with
  | given o => exact ⟨rfl, rfl⟩
  | earlier k =>
    have terms := Laurent.polynomial_wrapTerms_eq (same k)
    exact ⟨terms, Laurent.constantValue?_eq terms⟩

theorem Argument.residue_operand
    (same : ∀ k, residue (v k).polynomial = residue (w k).polynomial) (a : Argument n) :
    residue (a.operand v).polynomial = residue (a.operand w).polynomial := by
  rw [← Operand.residue_wrapTerms, (a.operand_alike same).polynomial, Operand.residue_wrapTerms]

theorem Argument.bindings_alike
    (same : ∀ k, residue (v k).polynomial = residue (w k).polynomial)
    (bound : List (String × Argument n)) :
    (bindings v bound).wrapTerms.Alike (bindings w bound).wrapTerms := by
  intro s
  induction bound with
  | nil => exact .none
  | cons entry rest ih =>
    simp only [bindings, Bindings.wrapTerms, List.map_cons, List.lookup_cons] at ih ⊢
    split
    · exact .some (entry.2.operand_alike same)
    · exact ih

end Operands

section Steps

variable {n : ℕ} {v w : Fin n → Laurent} {e f : Laurent} {o q : Operand} (tidy other : Bool)

theorem Wrapping.divWith_agree (same : residue e.polynomial = residue f.polynomial)
    (alike : o.wrapTerms.Alike q.wrapTerms) :
    AgreeInWords (divWith tidy e o) (divWith other f q) := by
  cases scalar : scalar? o with
  | none =>
    rw [divWith_of_none tidy e o scalar,
      divWith_of_none other f q (alike.scalar.symm.trans scalar)]
    exact .failures rfl
  | some r =>
    have scalar' : scalar? q = some r := alike.scalar.symm.trans scalar
    by_cases zero : r.value = 0
    · rw [divWith_of_zero tidy e o scalar zero, divWith_of_zero other f q scalar' zero]
      exact .failures rfl
    · obtain ⟨g, left, hg⟩ := divWith_of_ne_zero tidy e o scalar zero
      obtain ⟨k, right, hk⟩ := divWith_of_ne_zero other f q scalar' zero
      rw [left, right]
      exact .values (by simp only [residue_finish, hg, hk, map_mul, same])

/-- Without substitution, a step depends on the residues of its operands alone. -/
theorem Step.apply_agree (same : ∀ k, residue (v k).polynomial = residue (w k).polynomial)
    {step : Step n} (free : step.isSubstitution = false) :
    AgreeInWords (step.apply tidy v) (step.apply other w) := by
  cases step with
  | add k a =>
    have operand := a.residue_operand same
    exact .values (by rw [Wrapping.residue_addWith, Wrapping.residue_addWith, same, operand])
  | sub k a =>
    have operand := a.residue_operand same
    exact .values (by rw [Wrapping.residue_subWith, Wrapping.residue_subWith, same, operand])
  | mul k a =>
    have operand := a.residue_operand same
    exact .values (by rw [Wrapping.residue_mulWith, Wrapping.residue_mulWith, same, operand])
  | div k a => exact Wrapping.divWith_agree tidy other (same k) (a.operand_alike same)
  | pow k exponent =>
    have first := Wrapping.powWith_agrees (same k) tidy true exponent
    exact first.trans (Wrapping.powWith_agrees rfl other true exponent).symm
  | neg k =>
    exact .values (by rw [Laurent.polynomial_neg, Laurent.polynomial_neg, map_neg, map_neg, same])
  | substitute k bound => cases free

/-- What is written down on the right is written down, with the same words for its degrees, on the
left. -/
def Laurent.CoversInWords (e f : Laurent) : Prop := e.wrapTerms.Covers f.wrapTerms

theorem Laurent.CoversInWords.same (h : e.CoversInWords f) :
    residue e.polynomial = residue f.polynomial := by
  rw [← residue_wrapTerms, Covers.same h, residue_wrapTerms]

/-- Substitution that succeeds does so on covered expressions too. -/
theorem Laurent.CoversInWords.substituteWith {b : Bindings} {g : Laurent} (h : e.CoversInWords f)
    (answer : Wrapping.substituteWith tidy b e = .ok g) : ∃ k,
      Wrapping.substituteWith other b f = .ok k ∧ residue g.polynomial = residue k.polynomial := by
  have first := Wrapping.substituteWith_agrees b tidy true e
  rw [answer] at first
  obtain ⟨g', left, value⟩ := first.exists_ok
  obtain ⟨k', right, image⟩ := Covers.substituteWith h left true
  have second := Wrapping.substituteWith_agrees b other true f
  rw [right] at second
  obtain ⟨k, final, again⟩ := second.symm.exists_ok
  exact ⟨k, final, by rw [value, image, again]⟩

theorem Bindings.Alike.wrapping_agree {b c : Bindings} (alike : b.wrapTerms.Alike c.wrapTerms)
    (e : Laurent) : AgreeInWords (Wrapping.substituteWith tidy b e)
      (Wrapping.substituteWith other c e) := by
  have first := Wrapping.substituteWith_agrees b tidy true e
  have second := Wrapping.substituteWith_agrees c other true e
  exact first.trans ((AgreeInWords.of_agree (alike.substituteWith_agree _ _ _)).trans second.symm)

variable {tidy}

/-- A step that succeeds does so on covered expressions too, under any flag. -/
theorem Step.apply_ok (covers : ∀ k, (v k).CoversInWords (w k)) {step : Step n}
    (answer : step.apply tidy v = .ok e) :
    ∃ f, step.apply other w = .ok f ∧ residue e.polynomial = residue f.polynomial := by
  have same k := (covers k).same
  cases free : step.isSubstitution with
  | false =>
    have agree := apply_agree tidy other same free
    rw [answer] at agree
    exact agree.exists_ok
  | true =>
    cases step with
    | substitute k bound =>
      obtain ⟨g, middle, value⟩ := (covers k).substituteWith tidy other answer
      have agree := (Argument.bindings_alike same bound).wrapping_agree other other (w k)
      rw [middle] at agree
      obtain ⟨f, final, again⟩ := agree.exists_ok
      exact ⟨f, final, value.trans again⟩
    | _ => cases free

theorem Step.wrapped_of_apply {step : Step n} (answer : step.apply true w = .ok f) :
    f.wrapped = f ∨ ∃ k, step = .neg k := by
  cases step with
  | add k a | sub k a | mul k a =>
    cases answer
    exact .inl (Laurent.wrapped_wrapped _)
  | div k a =>
    obtain ⟨r, g, -, -, rfl, -⟩ := Wrapping.exists_of_divWith true _ _ answer
    exact .inl g.wrapped_wrapped
  | pow k exponent => exact .inl (Wrapping.powWith_wrapped _ answer)
  | neg k => exact .inr ⟨k, rfl⟩
  | substitute k bound => exact .inl (Wrapping.substitute_wrapped answer)

/-- The terms of a normal form in words were written down in everything of its residue. -/
theorem Laurent.CoversInWords.of_wrapped (wrapped : f.wrapped = f)
    (same : residue e.polynomial = residue f.polynomial) : e.CoversInWords f := by
  rw [CoversInWords, ← wrapped, wrapTerms_wrapped]
  refine .of_normal f.wrapped_normal (e.wrapTerms_inRange.eq_of_residue_eq f.wrapped_inRange ?_)
  rw [residue_wrapTerms, residue_wrapped, same]

theorem Laurent.CoversInWords.neg (h : e.CoversInWords f) : e.neg.CoversInWords f.neg := by
  constructor
  · apply polynomial_wrapTerms_eq
    rw [polynomial_neg, polynomial_neg, map_neg, map_neg, h.same]
  · simp only [wrapTerms, Laurent.neg, List.map_map, List.forall_mem_map]
    intro k member
    obtain ⟨_, written, exponents⟩ := h.terms k.wrapped (List.mem_map_of_mem member)
    obtain ⟨n, listed, rfl⟩ := List.mem_map.mp written
    -- a sign leaves the powers as they are
    exact ⟨n.neg.wrapped, List.mem_map_of_mem listed, exponents⟩

/-- The invariant of the two runs: what is written down on the normalized side is written down, with
the same words for its degrees, on the other. -/
theorem Step.apply_covers (covers : ∀ k, (v k).CoversInWords (w k)) {step : Step n}
    (answer : step.apply tidy v = .ok e) :
    ∃ f, step.apply true w = .ok f ∧ e.CoversInWords f := by
  obtain ⟨f, normalized, same⟩ := apply_ok true covers answer
  refine ⟨f, normalized, ?_⟩
  rcases wrapped_of_apply normalized with wrapped | ⟨k, rfl⟩
  · exact .of_wrapped wrapped same
  · cases answer
    cases normalized
    exact (covers k).neg

end Steps

namespace Program

variable {n : ℕ} {v w : Fin n → Laurent} {tidy : ℕ → Bool}

theorem forall_snoc {R : Laurent → Laurent → Prop} {e f : Laurent} (earlier : ∀ k, R (v k) (w k))
    (last : R e f) (k : Fin (n + 1)) :
    R (@Fin.snoc n (fun _ => Laurent) v e k) (@Fin.snoc n (fun _ => Laurent) w f k) := by
  induction k using Fin.lastCases with
  | last => simpa using last
  | cast k => simpa using earlier k

/-- A run that completes does so with every result normalized, with results of the same normal
forms. -/
theorem run_covers (p : Program n) (covers : ∀ k, (v k).CoversInWords (w k))
    (completes : (p.run tidy v).failure = none) :
    (p.run (fun _ => true) w).failure = none ∧
    (p.run tidy v).results.map Laurent.wrapped =
      (p.run (fun _ => true) w).results.map Laurent.wrapped := by
  induction p with
  | done => exact ⟨rfl, rfl⟩
  | @next n step rest ih =>
    cases answer : step.apply (tidy n) v with
    | error f =>
      simp only [run, answer] at completes
      cases completes
    | ok e =>
      obtain ⟨f, normalized, last⟩ := Step.apply_covers covers answer
      simp only [run, answer] at completes
      obtain ⟨complete, same⟩ := ih (forall_snoc covers last) completes
      have first := (Laurent.wrapped_eq_iff (e := e) (f := f)).mpr last.same
      simp only [run, answer, normalized]
      exact ⟨complete, by simp only [List.map_cons, first, same]⟩

/-- Without substitution, two runs give results of the same normal forms up to one step, and end
there for one reason. -/
theorem run_agree (p : Program n) (free : p.substitutionFree = true)
    (same : ∀ k, residue (v k).polynomial = residue (w k).polynomial)
    (tidy other : ℕ → Bool) :
    (p.run tidy v).results.map Laurent.wrapped = (p.run other w).results.map Laurent.wrapped ∧
    (p.run tidy v).failure.map Failure.kind = (p.run other w).failure.map Failure.kind := by
  induction p with
  | done => exact ⟨rfl, rfl⟩
  | @next n step rest ih =>
    simp only [substitutionFree, Bool.and_eq_true, Bool.not_eq_true'] at free
    have agree := Step.apply_agree (tidy n) (other n) same free.1
    unfold run
    generalize step.apply (tidy n) v = left, step.apply (other n) w = right at agree
    cases agree with
    | values first =>
      have later := forall_snoc
        (R := fun e f => residue e.polynomial = residue f.polynomial) same first
      obtain ⟨results, failure⟩ := ih free.2 later
      have first := Laurent.wrapped_eq_iff.mpr first
      exact ⟨by simp only [List.map_cons, first, results], failure⟩
    | failures cause => exact ⟨rfl, congrArg some cause⟩

/-- Flags do not change what a program means. When a run completes, the run with every result
normalized completes with results of the same normal forms. Without substitution, any two runs give
as many results, of the same normal forms, and end in failures of one kind. -/
theorem run_independent_of_flags (p : Program n) (starts : Fin n → Laurent) (tidy : ℕ → Bool) :
    ((p.run tidy starts).failure = none →
      (p.run (fun _ => true) starts).failure = none ∧
      (p.run tidy starts).results.map Laurent.wrapped =
        (p.run (fun _ => true) starts).results.map Laurent.wrapped) ∧
    (p.substitutionFree = true → ∀ other : ℕ → Bool,
      (p.run tidy starts).results.map Laurent.wrapped =
        (p.run other starts).results.map Laurent.wrapped ∧
      (p.run tidy starts).failure.map Failure.kind =
        (p.run other starts).failure.map Failure.kind) := by
  constructor
  · exact p.run_covers fun k => Laurent.Covers.refl (starts k).wrapTerms
  · exact fun free other => p.run_agree free (fun _ => rfl) tidy other

/-- The square, and then the square in the place of x in itself. -/
def squareTwice : Program 1 :=
  next (.mul 0 (.earlier 0)) (next (.substitute 1 [("x", .earlier 1)]) done)

/-- The difference of an expression from itself, and then a division by it. -/
def divideByDifference : Program 1 :=
  next (.sub 0 (.earlier 0)) (next (.div 0 (.earlier 1)) done)

/-- The square of an expression. -/
def squareOnce : Program 1 := next (.mul 0 (.earlier 0)) done

/-- The degree of the square of x under 2 ^ 62 wraps, in the raw result only when it is normalized
afterwards. -/
theorem run_independent_of_flags_from_symbol :
    ((squareTwice.run (fun _ => true) fun _ => .symbol "x").failure = none ∧
      (squareTwice.run (fun _ => false) fun _ => .symbol "x").results.map Laurent.wrapped =
        (squareTwice.run (fun _ => true) fun _ => .symbol "x").results.map Laurent.wrapped) ∧
    (squareOnce.run (fun _ => false) fun _ =>
        ⟨[⟨.one, [⟨"x", 0x4000000000000000⟩]⟩], .zero⟩).results.map Laurent.wrapped =
      [⟨[⟨.one, [⟨"x", -0x8000000000000000⟩]⟩], .zero⟩] ∧
    (divideByDifference.run (fun _ => false) fun _ => .symbol "x").failure.map Failure.kind =
      (divideByDifference.run (fun _ => true) fun _ => .symbol "x").failure.map Failure.kind := by
  obtain ⟨completes, -⟩ := squareTwice.run_independent_of_flags (fun _ => .symbol "x") fun _ => false
  obtain ⟨wraps, -⟩ := squareOnce.run_independent_of_flags
    (fun _ => ⟨[⟨.one, [⟨"x", 0x4000000000000000⟩]⟩], .zero⟩) fun _ => false
  obtain ⟨-, agrees⟩ :=
    divideByDifference.run_independent_of_flags (fun _ => .symbol "x") fun _ => false
  exact ⟨completes (by decide +kernel), (wraps (by decide +kernel)).2.trans (by decide +kernel),
    (agrees (by decide +kernel) _).2⟩

end Program

end ExactAlgebra
