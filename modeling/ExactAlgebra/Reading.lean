import ExactAlgebra.Equation
import ExactAlgebra.Formula.Reading

/-!
Expressions and equations from text. The sides of an equation stand around its first equals sign
and are freed of Unicode blanks at their ends; inside a formula only ASCII blanks may stand.
-/
namespace ExactAlgebra

def isUnicodeBlank (c : Char) : Bool :=
  let n := c.toNat
  decide (9 ≤ n ∧ n ≤ 13) || n == 0x20 || n == 0x85 || n == 0xA0 || n == 0x1680 ||
    decide (0x2000 ≤ n ∧ n ≤ 0x200A) || n == 0x2028 || n == 0x2029 || n == 0x202F ||
    n == 0x205F || n == 0x3000

def trimBlanks (cs : List Char) : List Char :=
  ((cs.dropWhile isUnicodeBlank).reverse.dropWhile isUnicodeBlank).reverse

def Laurent.ofChars (greek : GreekNames) (cs : List Char) : Except Failure Laurent :=
  match Formula.ofChars? cs with
  | none => .error .unreadable
  | some f => f.toLaurent greek

def Laurent.read (greek : GreekNames) (text : String) : Except Failure Laurent :=
  Laurent.ofChars greek text.toList

def splitAtEquals? : List Char → Option (List Char × List Char)
  | [] => none
  | c :: cs => if c = '=' then some ([], cs) else (splitAtEquals? cs).map fun p => (c :: p.1, p.2)

def Equation.read (greek : GreekNames) (text : String) : Except Failure Equation :=
  match splitAtEquals? text.toList with
  | none => .error .noEqualsSign
  | some (left, right) => do
    let e ← Laurent.ofChars greek (trimBlanks left)
    let e' ← Laurent.ofChars greek (trimBlanks right)
    return .ofSides e e'

end ExactAlgebra
