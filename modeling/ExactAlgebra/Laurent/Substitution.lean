import ExactAlgebra.Laurent.Arithmetic

/-!
Substitution of operands for symbols, all at once: a bound value is not searched for bound
symbols again, and unbound symbols stay. A number may stand under any degree that its value
allows; an expression only under the exponents that `pow` accepts.
-/
namespace ExactAlgebra

/-- An exponent that counts: not negative and below 2 ^ 32. -/
def naturalExponent? (n : Int) : Option Nat :=
  if 0 ≤ n ∧ n < 0x100000000 then some n.toNat else none

def Power.substitute (b : Bindings) (p : Power) : Except Failure Laurent :=
  match b.lookup p.symbol with
  | none => .ok (.ofMonomial (.ofPower p))
  | some o =>
    match o.scalar? with
    | some r => orDivisionByZero ((r.pow? p.degree).map Laurent.const)
    | none =>
      match naturalExponent? p.degree with
      | some n => o.toLaurent.pow n
      | none => .error (.expressionUnderPower p)

def Monomial.substitute (b : Bindings) (m : Monomial) : Except Failure Laurent :=
  m.normalize.powers.foldlM (fun product p => (p.substitute b).map product.mul)
    (Laurent.const m.coefficient)

def Laurent.addSubstituted (tidy : Bool) (b : Bindings) (sum : Laurent) (m : Monomial) :
    Except Failure Laurent :=
  (m.substitute b).map fun value => (sum.addRaw value).finish tidy

def Laurent.substituteWith (tidy : Bool) (b : Bindings) (e : Laurent) : Except Failure Laurent :=
  (e.terms.foldlM (Laurent.addSubstituted tidy b) (.const e.constant)).map (·.finish tidy)

def Laurent.substitute (b : Bindings) (e : Laurent) : Except Failure Laurent :=
  e.substituteWith true b

def Equation.substitute (b : Bindings) (q : Equation) : Except Failure Equation := do
  let left ← q.left.substitute b
  let right ← q.right.substitute b
  return ⟨left, right⟩

end ExactAlgebra
