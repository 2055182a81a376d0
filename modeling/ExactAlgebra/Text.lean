import ExactAlgebra.Double.Decimal
import ExactAlgebra.RationalFunction
import ExactAlgebra.Script

/-!
Plain text. Ratios are written in lowest terms with a slash, a degree other than one follows a
caret, and the factors of a term stand side by side. Text is written of what is stored: an
expression that was not normalized shows its like terms apart.
-/
namespace ExactAlgebra

def Ratio.text (r : Ratio) : String :=
  if r.reduce.isInteger then toString r.reduce.num
  else toString r.reduce.num ++ "/" ++ toString r.reduce.den

def Power.text (p : Power) : String :=
  if p.degree = 1 then p.symbol else p.symbol ++ "^" ++ toString p.degree

def Script.plain : Script := ⟨Ratio.text, Power.text, ""⟩

def Monomial.text (m : Monomial) : String := Script.plain.monomial m

def Laurent.text (e : Laurent) : String := Script.plain.laurent e

def Gaussian.text (z : Gaussian) : String := Script.plain.gaussian z

def Equation.text (q : Equation) : String := Script.plain.equation q

def RationalFunction.text (f : RationalFunction) : String :=
  "(" ++ f.numerator.text ++ ")/(" ++ f.denominator.text ++ ")"

def Root.text : Root → String
  | exact r => r.text
  | approximate x => x.text

def Solution.text : Solution → String
  | value r => r.text
  | expression e => e.text
  | anything => "any value"
  | roots list => "[" ++ ", ".intercalate (list.map Root.text) ++ "]"

end ExactAlgebra
