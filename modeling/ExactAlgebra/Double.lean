/-!
Double-precision numbers. The finite doubles of one sign, listed by size, are counted from zero:
step 0 is zero, step 1 the least positive double, and the step after the largest finite double is
infinity. So a double is a sign and a step, or not a number; order is order of steps, and the
step is also the interchange bit pattern without its sign. `rounded` is the one place where an
exact ratio becomes a double, to the nearest and in a tie to the even step.
-/
namespace ExactAlgebra

/-- The steps from one power of two to the next, 2 to the 52. -/
def Double.binade : Nat := 0x10000000000000

def Double.infinityStep : Nat := 0x7FF0000000000000

inductive Double
  | nan
  | step (negative : Bool) (count : Fin (Double.infinityStep + 1))
deriving DecidableEq

namespace Double

def signWeight : Nat := 0x8000000000000000

def twoPow (n : Nat) : Nat := Nat.pow 2 n

def ofStep (negative : Bool) (k : Nat) : Double :=
  .step negative ⟨min k infinityStep, Nat.lt_succ_of_le (Nat.min_le_right _ _)⟩

def ofBits (bits : Nat) : Double :=
  if infinityStep < bits % signWeight then nan
  else ofStep (decide (bits / signWeight % 2 = 1)) (bits % signWeight)

/-- The bit pattern of a number; there is no one pattern for what is not a number. -/
def toBits? : Double → Option Nat
  | nan => none
  | step negative k => some (k.val + if negative then signWeight else 0)

def isNegative : Double → Bool
  | nan => false
  | step negative _ => negative

/-- Step k of either sign is worth `significand k * 2 ^ exponent k`. -/
def significand (k : Nat) : Nat := if k < binade then k else binade + k % binade

def exponent (k : Nat) : Int := if k < binade then -1074 else (k / binade : Nat) - 1075

def size (k : Nat) : Rat :=
  if 0 ≤ exponent k then (significand k * twoPow (exponent k).toNat : Nat)
  else mkRat (significand k) (twoPow (-exponent k).toNat)

def toRat? : Double → Option Rat
  | nan => none
  | step negative k =>
    if k.val = infinityStep then none
    else some (if negative then -size k.val else size k.val)

/-- The natural number nearest to a quotient, in a tie the even one. -/
def nearestEven (num den : Nat) : Nat :=
  if 2 * (num % den) < den then num / den
  else if den < 2 * (num % den) then num / den + 1
  else num / den + num / den % 2

def inUnits (num den : Nat) (e : Int) : Nat × Nat :=
  (num * twoPow (-e).toNat, den * twoPow e.toNat)

/-- The exponent at which num / den has at most 53 binary digits before the point. -/
def unitExponent (num den : Nat) : Int :=
  let low : Int := max (-1074) (num.log2 - den.log2 - 53)
  let scaled := inUnits num den low
  if 2 * binade ≤ scaled.1 / scaled.2 then low + 1 else low

/-- The step nearest to num / den. A significand that rounds up to the next power of two carries
into the exponent, as the steps are numbered. -/
def nearestStep (num den : Nat) : Nat :=
  if num = 0 then 0
  else
    let e := unitExponent num den
    let scaled := inUnits num den e
    nearestEven scaled.1 scaled.2 + (e + 1074).toNat * binade

def rounded (negative : Bool) (num den : Nat) : Double := ofStep negative (nearestStep num den)

def ofRat (q : Rat) : Double := rounded (decide (q < 0)) q.num.natAbs q.den

def ofInt (n : Int) : Double := ofRat n

def zero : Double := ofStep false 0

def one : Double := ofInt 1

/-- Steps with their sign: equal for the two zeros. -/
def ordinal? : Double → Option Int
  | nan => none
  | step negative k => some (if negative then -(k.val : Int) else k.val)

def lt (x y : Double) : Bool :=
  match x.ordinal?, y.ordinal? with
  | some i, some j => decide (i < j)
  | _, _ => false

/-- Numerically equal: the zeros are, and what is not a number never is. -/
def same (x y : Double) : Bool :=
  match x.ordinal?, y.ordinal? with
  | some i, some j => i == j
  | _, _ => false

end Double

end ExactAlgebra
