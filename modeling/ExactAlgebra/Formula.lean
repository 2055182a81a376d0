import ExactAlgebra.Greek
import ExactAlgebra.Laurent.Substitution

/-!
Formulas as they are written, and the expression that each one stands for. A name of several
letters is one symbol if the list of Greek names has it and else the product of its letters; a
power then raises the last letter only. Divisors must be numbers and exponents natural numbers,
judged after normalization.
-/
namespace ExactAlgebra

inductive Formula
  | number (digits places : Nat)
  | name (letters : String)
  | add (f g : Formula)
  | sub (f g : Formula)
  | mul (f g : Formula)
  | div (f g : Formula)
  | pow (base exponent : Formula)
  | neg (f : Formula)
deriving DecidableEq

def Laurent.letters (cs : List Char) : Laurent :=
  cs.foldl (fun product c => product.mul (.symbol (String.singleton c))) .one

def Laurent.exponent? (e : Laurent) : Option Nat :=
  match e.constantValue? with
  | some r => if r.isInteger then naturalExponent? r.reduce.num else none
  | none => none

namespace Formula

def decimal (digits places : Nat) : Ratio :=
  ⟨digits, Nat.pow 10 places,
    Int.ofNat_ne_zero.2 (Nat.pos_iff_ne_zero.1 (Nat.pow_pos (by decide)))⟩

/-- The letters before the last one and the last one, for a product of at least two letters. -/
def lastLetter? (greek : GreekNames) : Formula → Option (List Char × Char)
  | name letters =>
    if greek.contains letters || letters.toList.dropLast.isEmpty then none
    else letters.toList.getLast?.map fun c => (letters.toList.dropLast, c)
  | _ => none

def toLaurent (greek : GreekNames) : Formula → Except Failure Laurent
  | number digits places => .ok (.const (decimal digits places))
  | name letters =>
    .ok (if greek.contains letters then .symbol letters else .letters letters.toList)
  | add f g => do
    let e ← f.toLaurent greek
    let e' ← g.toLaurent greek
    return e.add e'
  | sub f g => do
    let e ← f.toLaurent greek
    let e' ← g.toLaurent greek
    return e.sub e'
  | mul f g => do
    let e ← f.toLaurent greek
    let e' ← g.toLaurent greek
    return e.mul e'
  | div f g => do
    let e ← f.toLaurent greek
    let e' ← g.toLaurent greek
    e.div e'
  | neg f => do
    let e ← f.toLaurent greek
    return e.neg
  | pow base exponent => do
    let e ← exponent.toLaurent greek
    match e.exponent? with
    | none => .error (.exponentNotNatural e)
    | some n =>
      match base.lastLetter? greek with
      | some (before, last) => ((Laurent.letters [last]).pow n).map (Laurent.letters before).mul
      | none => do
        let b ← base.toLaurent greek
        b.pow n

end Formula

end ExactAlgebra
