import ExactAlgebra.Double

/-!
Doubles in decimal: the fewest significant digits that read back as the same double, and among
those the decimal nearest to it, the upper one when two are equally near. The digits are written
out in full, without an exponent and without a fraction that is zero.
-/
namespace ExactAlgebra.Double

/-- The greatest z such that 10 ^ z is at most n, for a positive n. -/
def decimalLog (n : Nat) : Nat := (Nat.toDigits 10 n).length - 1

/-- The exponent z of the decade with 10 ^ (z - 1) ≤ num / den < 10 ^ z. -/
def decade (num den : Nat) : Int :=
  if den ≤ num then decimalLog (num / den) + 1 else -(decimalLog ((den - 1) / num) : Int)

def powerOfTen (z : Int) : Rat :=
  if 0 ≤ z then (Nat.pow 10 z.toNat : Nat) else mkRat 1 (Nat.pow 10 (-z).toNat)

/-- A decimal reads back as step k when it lies between the middles to both neighbours, the
middles included for an even step. -/
def readsBack (k : Nat) (q : Rat) : Bool :=
  let low := (size (k - 1) + size k) / 2
  let high := (size k + size (k + 1)) / 2
  if k % 2 = 0 then decide (low ≤ q ∧ q ≤ high) else decide (low < q ∧ q < high)

/-- The nearer of the two multiples of a unit around step k that read back. -/
def onGrid? (k : Nat) (unit : Rat) : Option Nat :=
  let below := (size k / unit).floor.toNat
  let takesBelow := readsBack k (below * unit)
  let takesAbove := readsBack k ((below + 1 : Nat) * unit)
  if takesBelow && takesAbove then
    some (if size k - below * unit < (below + 1 : Nat) * unit - size k then below else below + 1)
  else if takesBelow then some below
  else if takesAbove then some (below + 1)
  else none

/-- The first grid of ever more digits that has a multiple; seventeen digits always do. -/
def shortestFrom (k : Nat) (z : Int) : List Nat → Nat × Int
  | [] => (0, 0)
  | n :: more =>
    match onGrid? k (powerOfTen (z - n)) with
    | some digits => (digits, z - n)
    | none => shortestFrom k z more

def shortest (k : Nat) : Nat × Int :=
  let q := size k
  shortestFrom k (decade q.num.natAbs q.den) ((List.range 17).map (· + 1))

def dropTrailingZeros (cs : List Char) : List Char :=
  (cs.reverse.dropWhile (· == '0')).reverse

def positional (digits : Nat) (z : Int) : String :=
  if 0 ≤ z then toString (digits * Nat.pow 10 z.toNat)
  else
    let places := (-z).toNat
    let fraction := (Nat.toDigits 10 (digits % Nat.pow 10 places)).leftpad places '0'
    let whole := toString (digits / Nat.pow 10 places)
    match dropTrailingZeros fraction with
    | [] => whole
    | shown => whole ++ "." ++ String.ofList shown

def text : Double → String
  | nan => "NaN"
  | step negative k =>
    let size :=
      if k.val = 0 then "0"
      else if k.val = infinityStep then "inf"
      else positional (shortest k.val).1 (shortest k.val).2
    if negative then "-" ++ size else size

end ExactAlgebra.Double
