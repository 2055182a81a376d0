import ExactAlgebra.Ratio.Arithmetic

/-!
Sums and quotients of monomials, which may fail. Only alike monomials have a monomial as their
sum; a quotient fails only when the divisor's coefficient is zero, as degrees may be negative.
-/
namespace ExactAlgebra.Monomial

def add (m n : Monomial) : Except Failure Monomial :=
  if m.alike n then .ok (m.combine n) else .error (.unlikeTerms m n)

def sub (m n : Monomial) : Except Failure Monomial := m.add n.neg

def divRatio? (m : Monomial) (r : Ratio) : Option Monomial :=
  (m.coefficient.div? r).map fun c => ⟨c, m.powers⟩

def inversePowers (m : Monomial) : List Power := m.powers.map fun p => ⟨p.symbol, -p.degree⟩

def div? (m n : Monomial) : Option Monomial :=
  (m.coefficient.div? n.coefficient).map fun c =>
    normalize ⟨c, m.powers ++ n.inversePowers⟩

def divRatio (m : Monomial) (r : Ratio) : Except Failure Monomial :=
  orDivisionByZero (m.divRatio? r)

def div (m n : Monomial) : Except Failure Monomial := orDivisionByZero (m.div? n)

end ExactAlgebra.Monomial
