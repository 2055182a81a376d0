import ExactAlgebra.Reading
import ExactAlgebra.Wrapping

/-!
The expression that a formula stands for, with degrees of 64 bits.
-/
namespace ExactAlgebra.Wrapping

def letters (cs : List Char) : Laurent :=
  cs.foldl (fun product c => mul product (.symbol (String.singleton c))) .one

def exponent? (e : Laurent) : Option Nat := e.wrapTerms.exponent?

def lower (greek : GreekNames) : Formula → Except Failure Laurent
  | .number digits places => .ok (.const (Formula.decimal digits places))
  | .name run => .ok (if greek.contains run then .symbol run else letters run.toList)
  | .add f g => do
    let e ← lower greek f
    let e' ← lower greek g
    return add e e'
  | .sub f g => do
    let e ← lower greek f
    let e' ← lower greek g
    return sub e e'
  | .mul f g => do
    let e ← lower greek f
    let e' ← lower greek g
    return mul e e'
  | .div f g => do
    let e ← lower greek f
    let e' ← lower greek g
    divWith true e (.laurent e')
  | .neg f => do
    let e ← lower greek f
    return e.neg
  | .pow base exponent => do
    let e ← lower greek exponent
    match exponent? e with
    | none => .error (.exponentNotNatural e)
    | some n =>
      match base.lastLetter? greek with
      | some (before, last) => (powWith true (letters [last]) n).map (mul (letters before))
      | none => do
        let b ← lower greek base
        powWith true b n

def read (greek : GreekNames) (text : String) : Except Failure Laurent :=
  match Formula.ofChars? text.toList with
  | none => .error .unreadable
  | some f => lower greek f

end ExactAlgebra.Wrapping
