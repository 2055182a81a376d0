import ExactAlgebra.Laurent

/-!
Quotients of two Laurent polynomials. Nothing is cancelled, so one rational function has many
quotients; `same` compares numerators and denominators as they are stored.
-/
namespace ExactAlgebra

structure RationalFunction where
  numerator : Laurent
  denominator : Laurent
deriving DecidableEq

namespace RationalFunction

def ofLaurent (e : Laurent) : RationalFunction := ⟨e.normalize, .one⟩

def neg (f : RationalFunction) : RationalFunction := ⟨f.numerator.neg, f.denominator⟩

def same (f g : RationalFunction) : Bool :=
  f.numerator.same g.numerator && f.denominator.same g.denominator

end RationalFunction

end ExactAlgebra
