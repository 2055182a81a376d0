/-!
Ratios of two integers, kept as they were written: 1/2, 2/4 and 3/6 are three ratios of one
value. `value` is the rational number behind a ratio. Arithmetic answers in lowest terms with a
positive denominator, and `reduce` brings a single ratio there. Sameness and order go by value;
the equality `=` of the type goes by what is stored.
-/
namespace ExactAlgebra

structure Ratio where
  num : Int
  den : Int
  den_ne_zero : den ≠ 0
deriving DecidableEq

namespace Ratio

def ofInt (n : Int) : Ratio := ⟨n, 1, by decide⟩

def ofRat (q : Rat) : Ratio := ⟨q.num, q.den, Int.ofNat_ne_zero.2 q.den_nz⟩

def ofParts? (num den : Int) : Option Ratio :=
  if h : den = 0 then none else some ⟨num, den, h⟩

def value (r : Ratio) : Rat := Rat.divInt r.num r.den

/-- Lowest terms with a positive denominator; zero becomes 0/1. -/
def reduce (r : Ratio) : Ratio := ofRat r.value

def zero : Ratio := ofInt 0

def one : Ratio := ofInt 1

instance : Inhabited Ratio := ⟨zero⟩

def isZero (r : Ratio) : Bool := r.num == 0

def isOne (r : Ratio) : Bool := r.num == r.den

def isNegative (r : Ratio) : Bool := r.num != 0 && decide (r.num < 0) != decide (r.den < 0)

def isInteger (r : Ratio) : Bool := r.num % r.den == 0

def add (r s : Ratio) : Ratio :=
  reduce ⟨r.num * s.den + s.num * r.den, r.den * s.den,
    Int.mul_ne_zero r.den_ne_zero s.den_ne_zero⟩

def neg (r : Ratio) : Ratio := reduce ⟨-r.num, r.den, r.den_ne_zero⟩

def sub (r s : Ratio) : Ratio := r.add s.neg

def mul (r s : Ratio) : Ratio :=
  reduce ⟨r.num * s.num, r.den * s.den, Int.mul_ne_zero r.den_ne_zero s.den_ne_zero⟩

def div? (r s : Ratio) : Option Ratio :=
  if h : s.num = 0 then none
  else some (reduce ⟨r.num * s.den, r.den * s.num, Int.mul_ne_zero r.den_ne_zero h⟩)

def inv? (r : Ratio) : Option Ratio := one.div? r

def abs (r : Ratio) : Ratio :=
  reduce ⟨r.num.natAbs, r.den.natAbs, fun h => r.den_ne_zero (by omega)⟩

/-- An integer power. A base of size at most one needs no more than the exponent's parity. -/
def intPower (base : Int) (n : Nat) : Int :=
  if n = 0 then 1
  else if base.natAbs ≤ 1 then (if n % 2 = 0 then base * base else base)
  else Int.pow base n

theorem intPower_ne_zero {base : Int} (h : base ≠ 0) (n : Nat) : intPower base n ≠ 0 := by
  unfold intPower
  split
  · exact Int.one_ne_zero
  · split
    · split
      · exact Int.mul_ne_zero h h
      · exact h
    · exact Int.pow_ne_zero h

def natPower (r : Ratio) (n : Nat) : Ratio :=
  reduce ⟨intPower r.reduce.num n, intPower r.reduce.den n,
    intPower_ne_zero r.reduce.den_ne_zero n⟩

/-- A negative exponent inverts the base first, so only zero has no negative powers. -/
def pow? (r : Ratio) : Int → Option Ratio
  | .ofNat n => some (r.natPower n)
  | .negSucc n => r.inv?.map (·.natPower (n + 1))

def exactSqrt? (n : Nat) : Option Nat :=
  if n.sqrt * n.sqrt = n then some n.sqrt else none

/-- The non-negative rational square root, when there is one: a number in lowest terms is a
square only if both of its parts are. -/
def sqrtRat? (q : Rat) : Option Rat :=
  if q < 0 then none
  else match exactSqrt? q.num.natAbs, exactSqrt? q.den with
    | some n, some d => some (mkRat n d)
    | _, _ => none

def sqrt? (r : Ratio) : Option Ratio := (sqrtRat? r.value).map ofRat

def isSquare (r : Ratio) : Bool := r.sqrt?.isSome

def same (r s : Ratio) : Bool := r.num * s.den == s.num * r.den

def order (r s : Ratio) : Ordering :=
  compare (r.reduce.num * s.reduce.den) (s.reduce.num * r.reduce.den)

end Ratio

end ExactAlgebra
