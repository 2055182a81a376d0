import ExactAlgebra.Double.Decimal
import ExactAlgebra.Greek
import ExactAlgebra.RationalFunction
import ExactAlgebra.Script

/-!
TeX. Ratios and quotients are fractions, every degree other than one is a braced superscript,
and the names of the style are commands. Factors stand side by side, or between them stands the
multiplication sign that the style names.
-/
namespace ExactAlgebra

structure TexStyle where
  multiplication : String
  explicit : Bool
  greek : GreekNames
deriving DecidableEq

def TexStyle.standard : TexStyle := ⟨"cdot", false, .standard⟩

namespace Tex

def command (name : String) : String := "\\" ++ name

def braced (body : String) : String := "\x7b" ++ body ++ "\x7d"

def fraction (above below : String) : String := command "frac" ++ braced above ++ braced below

end Tex

def Ratio.tex (r : Ratio) : String :=
  if r.reduce.isInteger then toString r.reduce.num
  else (if r.reduce.isNegative then "-" else "") ++
    Tex.fraction (toString r.reduce.num.natAbs) (toString r.reduce.den)

def Power.tex (style : TexStyle) (p : Power) : String :=
  let name := if style.greek.contains p.symbol then Tex.command p.symbol else p.symbol
  if p.degree = 1 then name else name ++ "^" ++ Tex.braced (toString p.degree)

def Script.tex (style : TexStyle) : Script where
  ratio := Ratio.tex
  power := Power.tex style
  glue := if style.explicit then " " ++ Tex.command style.multiplication ++ " " else ""

def Monomial.tex (style : TexStyle) (m : Monomial) : String := (Script.tex style).monomial m

def Laurent.tex (style : TexStyle) (e : Laurent) : String := (Script.tex style).laurent e

def Gaussian.tex (style : TexStyle) (z : Gaussian) : String := (Script.tex style).gaussian z

def Equation.tex (style : TexStyle) (q : Equation) : String := (Script.tex style).equation q

def RationalFunction.tex (style : TexStyle) (f : RationalFunction) : String :=
  Tex.fraction (f.numerator.tex style) (f.denominator.tex style)

def Root.tex : Root → String
  | exact r => r.tex
  | approximate x => x.text

def Root.texAll : List Root → String
  | [] => Tex.command "emptyset"
  | list => ", ".intercalate (list.map Root.tex)

def Solution.tex (style : TexStyle) : Solution → String
  | value r => r.tex
  | expression e => e.tex style
  | anything => Tex.command "mathbb" ++ Tex.braced "R"
  | roots list => Root.texAll list

end ExactAlgebra
