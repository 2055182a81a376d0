import ExactAlgebra.Gathering
import ExactAlgebra.Ratio

/-!
Monomials: a coefficient times a list of powers of symbols, kept as written, so a symbol may
occur twice and in any order. `normalize` multiplies the powers of each symbol out, drops those of
degree zero and puts the others in the order of print: higher degrees first, then by symbol. The
signature of a monomial lists the degrees that are left by symbol; two monomials are alike when they
have one signature.

Degrees are idealised: they are signed words of 64 bits where they are stored, and integers without
a bound here, so no sum of degrees overflows. `Wrapping` has the arithmetic of expressions with the
sums of words; the two agree as long as no degree leaves the range of words.
-/
namespace ExactAlgebra

structure Power where
  symbol : String
  degree : Int
deriving DecidableEq

namespace Power

def hasSymbolOf (p q : Power) : Bool := p.symbol == q.symbol

def combine (p q : Power) : Power := ⟨p.symbol, p.degree + q.degree⟩

/-- Print order: higher degrees first, then by symbol. -/
def order (p q : Power) : Ordering :=
  (compare q.degree p.degree).then (compare p.symbol q.symbol)

def entry (p : Power) : String × Int := (p.symbol, p.degree)

end Power

structure Monomial where
  coefficient : Ratio
  powers : List Power
deriving DecidableEq

/-- The nonzero total degree of each symbol, by symbol. -/
structure Signature where
  degrees : List (String × Int)
deriving DecidableEq

namespace Signature

def unit : Signature := ⟨[]⟩

def size (s : Signature) : Nat := s.degrees.length

def maxDegree (s : Signature) : Int := (s.degrees.map Prod.snd).max?.getD 0

def symbols (s : Signature) : List String := s.degrees.map Prod.fst

def compareEntries (p q : String × Int) : Ordering :=
  (compare p.1 q.1).then (compare p.2 q.2)

def compareDegrees : List (String × Int) → List (String × Int) → Ordering :=
  List.compareLex compareEntries

/-- Print order: the higher degree first, then the more symbols, then by symbol and degree. -/
instance : Ord Signature where
  compare s t :=
    (compare t.maxDegree s.maxDegree).then
      ((compare t.size s.size).then (compareDegrees s.degrees t.degrees))

end Signature

namespace Monomial

/-- Each symbol once, no zero degree, print order, and a coefficient in lowest terms. -/
def normalize (m : Monomial) : Monomial where
  coefficient := m.coefficient.reduce
  powers :=
    sortBy Power.order ((gather Power.hasSymbolOf Power.combine m.powers).filter (·.degree != 0))

def signature (m : Monomial) : Signature :=
  ⟨sortBy Signature.compareEntries (m.normalize.powers.map Power.entry)⟩

def ofPower (p : Power) : Monomial := normalize ⟨Ratio.one, [p]⟩

def ofRatio (r : Ratio) : Monomial := ⟨r.reduce, []⟩

def isConstant (m : Monomial) : Bool := m.signature == Signature.unit

def maxDegree (m : Monomial) : Int := m.signature.maxDegree

def symbolCount (m : Monomial) : Nat := m.signature.size

def degreeOf (m : Monomial) (symbol : String) : Int :=
  (m.powers.filter (·.symbol == symbol)).foldr (fun p total => p.degree + total) 0

def hasSymbol (m : Monomial) (symbol : String) : Bool := m.degreeOf symbol != 0

/-- Alike monomials differ in their coefficients only. -/
def alike (m n : Monomial) : Bool := m.signature == n.signature

def same (m n : Monomial) : Bool := m.coefficient.same n.coefficient && m.alike n

def combine (m n : Monomial) : Monomial :=
  ⟨m.coefficient.reduce.add n.coefficient, m.normalize.powers⟩

def order (m n : Monomial) : Ordering := compare m.signature n.signature

def scale (m : Monomial) (factor : Ratio) : Monomial := ⟨m.coefficient.mul factor, m.powers⟩

def neg (m : Monomial) : Monomial := m.scale (Ratio.ofInt (-1))

def juxtapose (m n : Monomial) : Monomial :=
  ⟨m.coefficient.mul n.coefficient, m.powers ++ n.powers⟩

def mul (m n : Monomial) : Monomial := (m.juxtapose n).normalize

end Monomial

end ExactAlgebra
