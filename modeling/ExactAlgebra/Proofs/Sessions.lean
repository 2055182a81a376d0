import ExactAlgebra.Gaussian.Arithmetic
import ExactAlgebra.Proofs.Evaluation
import ExactAlgebra.Proofs.LinearSolutions
import ExactAlgebra.Proofs.Lowering
import ExactAlgebra.Proofs.RationalFunctions
import ExactAlgebra.Reading

/-!
Sessions: runs of calls, each on values that were made before and on any numbers, monomials, texts
and symbols. No call has a flag that keeps what was written, yet not every one normalizes what it
makes: a negation, an operand that is an expression already and a sum over a common denominator keep
what they are given. That was made before, so every expression that can be read off a value is a
normal form, however long the session is.
-/
namespace ExactAlgebra

/-- What calls make. -/
inductive Value
  | expression (e : Laurent)
  | equation (q : Equation)
  | quotient (f : RationalFunction)
  | solution (s : Solution)
deriving DecidableEq

/-- The expressions that can be read off a value. -/
def Value.expressions : Value → List Laurent
  | expression e => [e]
  | equation q => [q.left, q.right]
  | quotient f => [f.numerator, f.denominator]
  | solution (.expression e) => [e]
  | solution _ => []

/-- Only an expression has to be made before it can stand as an operand. -/
def Operand.inputs : Operand → List Value
  | laurent e => [.expression e]
  | _ => []

def Bindings.inputs (b : Bindings) : List Value := b.flatMap fun entry => entry.2.inputs

section Calls

/-- Calls that make an expression of operands, texts, complex numbers and expressions. -/
inductive ExpressionCall
  | zero
  | operand (o : Operand)
  | read (greek : GreekNames) (text : String)
  | complex (z : Gaussian)
  | normalize (e : Laurent)
  | add (e : Laurent) (o : Operand)
  | sub (e : Laurent) (o : Operand)
  | mul (e : Laurent) (o : Operand)
  | div (e : Laurent) (o : Operand)
  | pow (e : Laurent) (exponent : ℕ)
  | neg (e : Laurent)
  | substitute (e : Laurent) (b : Bindings)
  | substituteMonomial (m : Monomial) (b : Bindings)

/-- Calls that make an equation. -/
inductive EquationCall
  | ofSides (left right : Laurent)
  | read (greek : GreekNames) (text : String)
  | substitute (q : Equation) (b : Bindings)

/-- Calls that make a quotient. -/
inductive QuotientCall
  | quotient (numerator denominator : Laurent)
  | ofLaurent (e : Laurent)
  | add (f g : RationalFunction)
  | sub (f g : RationalFunction)
  | mul (f g : RationalFunction)
  | div (f g : RationalFunction)
  | inv (f : RationalFunction)
  | neg (f : RationalFunction)
  | substitute (f : RationalFunction) (b : Bindings)
  | reduce (f : RationalFunction)

/-- All calls. A part of a value is called by its place among the expressions of the value. -/
inductive Call
  | expression (c : ExpressionCall)
  | equation (c : EquationCall)
  | quotient (c : QuotientCall)
  | part (v : Value) (place : ℕ)
  | difference (q : Equation)
  | solve (method : NumericMethod) (q : Equation) (s : String)
  | toLaurent (f : RationalFunction)

/-- The values that a call is made on. -/
def ExpressionCall.inputs : ExpressionCall → List Value
  | zero | read _ _ | complex _ => []
  | operand o => o.inputs
  | normalize e | pow e _ | neg e => [.expression e]
  | add e o | sub e o | mul e o | div e o => .expression e :: o.inputs
  | substitute e b => .expression e :: b.inputs
  | substituteMonomial _ b => b.inputs

def EquationCall.inputs : EquationCall → List Value
  | ofSides left right => [.expression left, .expression right]
  | read _ _ => []
  | substitute q b => .equation q :: b.inputs

def QuotientCall.inputs : QuotientCall → List Value
  | quotient numerator denominator => [.expression numerator, .expression denominator]
  | ofLaurent e => [.expression e]
  | add f g | sub f g | mul f g | div f g => [.quotient f, .quotient g]
  | inv f | neg f | reduce f => [.quotient f]
  | substitute f b => .quotient f :: b.inputs

def Call.inputs : Call → List Value
  | expression c => c.inputs
  | equation c => c.inputs
  | quotient c => c.inputs
  | part v _ => [v]
  | difference q | solve _ q _ => [.equation q]
  | toLaurent f => [.quotient f]

def ExpressionCall.result : ExpressionCall → Except Failure Laurent
  | zero => .ok .zero
  | operand o => .ok o.toLaurent
  | read greek text => Laurent.read greek text
  | complex z => .ok z.toLaurent
  | normalize e => .ok e.normalize
  | add e o => .ok (e.addWith true o)
  | sub e o => .ok (e.subWith true o)
  | mul e o => .ok (e.mulWith true o)
  | div e o => e.divWith true o
  | pow e exponent => e.pow exponent
  | neg e => .ok e.neg
  | substitute e b => e.substitute b
  | substituteMonomial m b => m.substitute b

def EquationCall.result : EquationCall → Except Failure Equation
  | ofSides left right => .ok (.ofSides left right)
  | read greek text => Equation.read greek text
  | substitute q b => q.substitute b

def QuotientCall.result : QuotientCall → Except Failure RationalFunction
  | quotient numerator denominator => numerator.quotient denominator
  | ofLaurent e => .ok (.ofLaurent e)
  | add f g => .ok (f.add g)
  | sub f g => .ok (f.sub g)
  | mul f g => .ok (f.mul g)
  | div f g => f.div g
  | inv f => f.inv
  | neg f => .ok f.neg
  | substitute f b => f.substitute b
  | reduce f => f.reduce

/-- The value that a call makes, if it does not fail. -/
def Call.result? : Call → Option Value
  | expression c => c.result.toOption.map .expression
  | equation c => c.result.toOption.map .equation
  | quotient c => c.result.toOption.map .quotient
  | part v place => v.expressions[place]?.map .expression
  | difference q => some (.expression q.difference)
  | solve method q s => (q.solveWith method s).toOption.map .solution
  | toLaurent f => f.toLaurent?.map .expression

end Calls

/-- The values of a session, the last one first. A call that fails makes none. -/
inductive Session : List Value → Prop
  | start : Session []
  | next {values : List Value} (earlier : Session values) (c : Call)
    (known : ∀ v ∈ c.inputs, v ∈ values) {v : Value} (made : c.result? = some v) :
    Session (v :: values)

/-- Normal forms throughout; the denominator of a quotient is not zero. -/
def Value.Sound : Value → Prop
  | expression e => e.Normal
  | equation q => q.left.Normal ∧ q.right.Normal
  | quotient f => f.Valid
  | solution s => ∀ e, s = .expression e → e.Normal

theorem Value.Sound.normal {v : Value} (sound : v.Sound) {e : Laurent}
    (member : e ∈ v.expressions) : e.Normal := by
  cases v with
  | expression =>
    obtain rfl := List.mem_singleton.mp member
    exact sound
  | equation =>
    rcases List.mem_pair.mp member with rfl | rfl
    · exact sound.1
    · exact sound.2
  | quotient =>
    rcases List.mem_pair.mp member with rfl | rfl
    · exact sound.numerator
    · exact sound.denominator
  | solution s =>
    cases s with
    | expression =>
      obtain rfl := List.mem_singleton.mp member
      exact sound _ rfl
    | _ => cases member

section Steps

theorem Operand.toLaurent_normal {o : Operand} (known : ∀ v ∈ o.inputs, v.Sound) :
    o.toLaurent.Normal := by
  cases o with
  | symbol | monomial => exact Laurent.normalize_normal _
  | integer | ratio => exact Laurent.const_normal _
  | laurent => exact known _ List.mem_cons_self

theorem Monomial.substitute_normal {m : Monomial} {b : Bindings} {e : Laurent}
    (made : m.substitute b = .ok e) : e.Normal := by
  have product (powers : List Power) {start : Laurent} (normal : start.Normal) :
      powers.foldlM (fun e p => (p.substitute b).map e.mul) start = .ok e → e.Normal := by
    induction powers generalizing start with
    | nil =>
      rintro ⟨⟩
      exact normal
    | cons p rest ih =>
      intro made
      obtain ⟨f, first, made⟩ := exists_of_bind made
      obtain ⟨g, -, rfl⟩ := exists_of_map first
      exact ih (Laurent.mul_normal _ _) made
  exact product _ (Laurent.const_normal _) made

theorem Laurent.ofChars_normal {greek : GreekNames} {cs : List Char} {e : Laurent}
    (made : ofChars greek cs = .ok e) : e.Normal := by
  unfold ofChars at made
  split at made
  · cases made
  · exact Formula.toLaurent_normal made

theorem ExpressionCall.normal {c : ExpressionCall} {e : Laurent} (known : ∀ v ∈ c.inputs, v.Sound)
    (made : c.result = .ok e) : e.Normal := by
  cases c with
  | zero =>
    cases made
    exact Laurent.zero_normal
  | operand =>
    cases made
    exact Operand.toLaurent_normal known
  | read => exact Laurent.ofChars_normal made
  | complex | normalize | add | sub | mul =>
    obtain rfl := Except.ok.inj made
    exact Laurent.normalize_normal _
  | div => exact Laurent.divWith_normal made
  | pow => exact Laurent.powWith_normal made
  | neg e =>
    cases made
    have normal : e.Normal := known _ List.mem_cons_self
    exact normal.neg
  | substitute => exact Laurent.substituteWith_normal made
  | substituteMonomial => exact Monomial.substitute_normal made

theorem Equation.ofSides_sound (left right : Laurent) :
    (Value.equation (.ofSides left right)).Sound :=
  ⟨left.normalize_normal, right.normalize_normal⟩

theorem EquationCall.sound {c : EquationCall} {q : Equation} (made : c.result = .ok q) :
    (Value.equation q).Sound := by
  cases c with
  | ofSides left right =>
    cases made
    exact Equation.ofSides_sound left right
  | read greek text =>
    simp only [result, Equation.read] at made
    split at made
    · cases made
    · obtain ⟨e, -, made⟩ := exists_of_bind made
      obtain ⟨e', -, made⟩ := exists_of_bind made
      cases made
      exact Equation.ofSides_sound e e'
  | substitute q b =>
    obtain ⟨left, first, made⟩ := exists_of_bind made
    obtain ⟨right, second, made⟩ := exists_of_bind made
    cases made
    exact ⟨Laurent.substituteWith_normal first, Laurent.substituteWith_normal second⟩

theorem Value.valid_of_pair {f g : RationalFunction}
    (known : ∀ v ∈ [Value.quotient f, .quotient g], v.Sound) : f.Valid ∧ g.Valid := by
  simpa [Sound] using known

theorem QuotientCall.valid {c : QuotientCall} {f : RationalFunction}
    (known : ∀ v ∈ c.inputs, v.Sound) (made : c.result = .ok f) : f.Valid := by
  cases c with
  | quotient => exact RationalFunction.quotient_valid made
  | ofLaurent e =>
    cases made
    exact RationalFunction.ofLaurent_valid e
  | add =>
    cases made
    obtain ⟨first, second⟩ := Value.valid_of_pair known
    exact first.add second
  | sub =>
    cases made
    obtain ⟨first, second⟩ := Value.valid_of_pair known
    exact first.sub second
  | mul =>
    cases made
    obtain ⟨first, second⟩ := Value.valid_of_pair known
    exact first.mul second
  | div =>
    obtain ⟨first, -⟩ := Value.valid_of_pair known
    exact first.of_div made
  | inv => exact RationalFunction.quotient_valid made
  | neg f =>
    cases made
    have valid : f.Valid := known _ List.mem_cons_self
    exact valid.neg
  | substitute => exact RationalFunction.substitute_valid made
  | reduce => exact RationalFunction.reduce_valid made

/-- One call: sound values give a sound one. -/
theorem Call.sound {c : Call} {v : Value} (known : ∀ v ∈ c.inputs, v.Sound)
    (made : c.result? = some v) : v.Sound := by
  cases c with
  | expression =>
    obtain ⟨e, result, rfl⟩ := exists_of_toOption made
    exact ExpressionCall.normal known result
  | equation =>
    obtain ⟨q, result, rfl⟩ := exists_of_toOption made
    exact EquationCall.sound result
  | quotient =>
    obtain ⟨f, result, rfl⟩ := exists_of_toOption made
    exact QuotientCall.valid known result
  | part v place =>
    obtain ⟨e, found, rfl⟩ := Option.map_eq_some_iff.mp made
    have sound : v.Sound := known v List.mem_cons_self
    exact sound.normal (List.mem_of_getElem? found)
  | difference q =>
    cases made
    exact Laurent.sub_normal q.left q.right
  | solve =>
    obtain ⟨s, solved, rfl⟩ := exists_of_toOption made
    rintro e rfl
    exact ((Equation.answered_of_solveWith solved).factors rfl).1
  | toLaurent =>
    obtain ⟨e, result, rfl⟩ := Option.map_eq_some_iff.mp made
    exact RationalFunction.toLaurent?_normal result

end Steps

namespace Session

section Invariant

variable {values : List Value} (session : Session values)
include session

/-- The invariant of a session: each call keeps it for the value that it adds. -/
theorem sound : ∀ v ∈ values, v.Sound := by
  induction session with
  | start => simp
  | next _ c known made ih =>
    have last := Call.sound (fun v member => ih v (known v member)) made
    exact List.forall_mem_cons.mpr ⟨last, ih⟩

theorem expressions_normal : ∀ e ∈ values.flatMap Value.expressions, e.Normal := by
  intro e member
  obtain ⟨v, hv, he⟩ := List.mem_flatMap.mp member
  exact (session.sound v hv).normal he

end Invariant

/-- What is read from x + x. -/
def doubled : Laurent := ⟨[⟨.ofInt 2, [⟨"x", 1⟩]⟩], .zero⟩

end Session

end ExactAlgebra
