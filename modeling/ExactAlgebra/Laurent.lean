import ExactAlgebra.Monomial

/-!
Laurent polynomials with rational coefficients, kept as written: a list of monomials and a
constant, in which like monomials may still stand apart. `normalize` adds like monomials up, takes
numbers into the constant, drops what has cancelled and puts the rest in print order. `same`
compares what is stored, monomial by monomial.
-/
namespace ExactAlgebra

structure Laurent where
  terms : List Monomial
  constant : Ratio
deriving DecidableEq

namespace Laurent

def zero : Laurent := ⟨[], Ratio.zero⟩

def const (r : Ratio) : Laurent := ⟨[], r.reduce⟩

def one : Laurent := const Ratio.one

/-- Like monomials combined, numbers left out. -/
def combineTerms (terms : List Monomial) : List Monomial :=
  gather Monomial.alike Monomial.combine (terms.filter (!·.isConstant))

def addNumbers (start : Ratio) (terms : List Monomial) : Ratio :=
  (terms.filter (·.isConstant)).foldl (fun sum m => sum.add m.coefficient) start

/-- Like monomials combined, zero ones dropped, print order, every ratio in lowest terms. -/
def normalize (e : Laurent) : Laurent :=
  let terms := e.terms.map (·.normalize)
  { terms := sortBy Monomial.order ((combineTerms terms).filter (!·.coefficient.isZero))
    constant := addNumbers e.constant.reduce terms }

def ofMonomial (m : Monomial) : Laurent := normalize ⟨[m], Ratio.zero⟩

def symbol (name : String) : Laurent := ofMonomial (.ofPower ⟨name, 1⟩)

def neg (e : Laurent) : Laurent := ⟨e.terms.map (·.neg), e.constant.neg⟩

def isZero (e : Laurent) : Bool := e.constant.isZero && e.terms.all (·.coefficient.isZero)

/-- The value of an expression in which no symbol survives. -/
def constantValue? (e : Laurent) : Option Ratio :=
  if e.normalize.terms.isEmpty then some e.normalize.constant else none

def isConstant (e : Laurent) : Bool := e.constantValue?.isSome

def maxDegree (e : Laurent) : Int := max ((e.terms.map (·.maxDegree)).max?.getD 0) 0

def maxDegreeOf (e : Laurent) (symbol : String) : Int :=
  (e.terms.map (·.degreeOf symbol)).max?.getD 0

def hasSymbol (e : Laurent) (symbol : String) : Bool := e.terms.any (·.hasSymbol symbol)

def onlyHasSymbol (e : Laurent) (symbol : String) : Bool :=
  e.terms.all fun m => m.signature.symbols.all (· == symbol)

def noCrossProducts (e : Laurent) : Bool := e.terms.all fun m => m.symbolCount ≤ 1

def noCrossProductsWith (e : Laurent) (symbol : String) : Bool :=
  (e.terms.filter (·.hasSymbol symbol)).all fun m => m.symbolCount ≤ 1

def symbols (e : Laurent) : List String :=
  sortedDistinct (e.normalize.terms.flatMap (·.signature.symbols))

def sameTerms : List Monomial → List Monomial → Bool
  | [], [] => true
  | m :: ms, n :: ns => m.same n && sameTerms ms ns
  | _, _ => false

def same (e f : Laurent) : Bool := sameTerms e.terms f.terms && e.constant.same f.constant

end Laurent

end ExactAlgebra
