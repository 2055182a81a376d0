import ExactAlgebra.Double.Arithmetic

/-!
Square root, cube root, cosine and inverse cosine of doubles. The roots are exact roots rounded
once. The other two are computed in fixed point with far more places than a double has and then
rounded, which rounds the exact value unless it lies closer to the middle of two doubles than any
value of these functions is known to. `RealFunctions` gathers what a caller may replace.
-/
namespace ExactAlgebra.Double

/-- Round r / 2 ^ places when that is exact, else a value strictly between it and its
successor. -/
def roundedRoot (negative exact : Bool) (r places : Nat) : Double :=
  if exact then rounded negative r (twoPow places)
  else rounded negative (2 * r + 1) (twoPow (places + 1))

def sqrt (x : Double) : Double :=
  match x with
  | nan => nan
  | step negative k =>
    if k.val = 0 then x
    else if negative then nan
    else if k.val = infinityStep then x
    else
      let q := size k.val
      let places := 61 + q.den.log2
      let n := q.num.natAbs * twoPow (2 * places)
      let r := (n / q.den).sqrt
      roundedRoot false (r * r * q.den == n) r places

/-- The greatest r with r ^ 3 at most n, binary digit by digit. -/
def cubeRootFrom (n : Nat) : Nat → Nat → Nat
  | 0, r => r
  | i + 1, r =>
    let s := r + twoPow i
    cubeRootFrom n i (if s * s * s ≤ n then s else r)

def cubeRoot (n : Nat) : Nat := cubeRootFrom n (n.log2 / 3 + 1) 0

def cbrt (x : Double) : Double :=
  match x with
  | nan => nan
  | step negative k =>
    if k.val = 0 ∨ k.val = infinityStep then x
    else
      let q := size k.val
      let places := 61 + q.den.log2
      let n := q.num.natAbs * twoPow (3 * places)
      let r := cubeRoot (n / q.den)
      roundedRoot negative (r * r * r * q.den == n) r places

/-! Fixed point: an integer n stands for n / 2 ^ bits. -/

def fixedOne (bits : Nat) : Int := twoPow bits

def fixed (bits : Nat) (q : Rat) : Int := q.num * fixedOne bits / q.den

def fixedMul (bits : Nat) (x y : Int) : Int := x * y / fixedOne bits

def fixedDiv (bits : Nat) (x y : Int) : Int := x * fixedOne bits / y

def fixedSqrt (bits : Nat) (x : Int) : Int := (x.toNat * twoPow bits).sqrt

/-- The first terms of 1 - s/3 + s²/5 - ..., innermost first. -/
def arctanSeries (bits : Nat) (square : Int) : Nat → Int → Int
  | 0, rest => rest
  | n + 1, rest =>
    arctanSeries bits square n (fixedOne bits / (2 * n + 1) - fixedMul bits square rest)

/-- The inverse tangent of a number of size at most 1/4. -/
def arctanSmall (bits : Nat) (x : Int) : Int :=
  fixedMul bits x (arctanSeries bits (fixedMul bits x x) (bits / 4 + 2) 0)

def pi (bits : Nat) : Int :=
  16 * arctanSmall bits (fixedOne bits / 5) - 4 * arctanSmall bits (fixedOne bits / 239)

def halfAngle (bits : Nat) (x : Int) : Int :=
  fixedDiv bits x (fixedOne bits + fixedSqrt bits (fixedOne bits + fixedMul bits x x))

def arctan (bits : Nat) (x : Int) : Int :=
  4 * arctanSmall bits (halfAngle bits (halfAngle bits x))

def arccos (bits : Nat) (x : Int) : Int :=
  2 * arctan bits (fixedSqrt bits (fixedDiv bits (fixedOne bits - x) (fixedOne bits + x)))

/-- The first terms of 1 - s/2 (1 - s/12 (1 - ...)), innermost first. -/
def cosSeries (bits : Nat) (square : Int) : Nat → Int → Int
  | 0, rest => rest
  | n + 1, rest =>
    cosSeries bits square n
      (fixedOne bits - fixedMul bits square rest / ((2 * n + 1) * (2 * n + 2)))

/-- The cosine of a number of any size, brought between minus pi and pi first. -/
def cosine (bits : Nat) (x : Int) : Int :=
  let turn := 2 * pi bits
  let y := x - (x + turn / 2) / turn * turn
  cosSeries bits (fixedMul bits y y) (bits / 4) (fixedOne bits)

def ofFixed (bits : Nat) (x : Int) : Double := ofRat (mkRat x (twoPow bits))

def acos (x : Double) : Double :=
  match x.toRat? with
  | none => nan
  | some q =>
    if q = 1 then zero
    else if 1 < q ∨ q < -1 then nan
    else if q < 0 then ofFixed 320 (pi 320 - arccos 320 (fixed 320 (-q)))
    else ofFixed 320 (arccos 320 (fixed 320 q))

def cos (x : Double) : Double :=
  match x.toRat? with
  | none => nan
  | some q =>
    let bits := 320 + (q.num.natAbs.log2 - q.den.log2)
    ofFixed bits (cosine bits (fixed bits q))

end ExactAlgebra.Double

namespace ExactAlgebra

structure RealFunctions where
  sqrt : Double → Double
  cbrt : Double → Double
  acos : Double → Double
  cos : Double → Double
  round : Double → Double

/-- Every function rounded once from its exact value. -/
def RealFunctions.rounded : RealFunctions :=
  ⟨Double.sqrt, Double.cbrt, Double.acos, Double.cos, Double.round⟩

end ExactAlgebra
