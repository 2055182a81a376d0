import ExactAlgebra.Equation
import ExactAlgebra.Gaussian

/-!
The layout that plain text and TeX have in common. A script says how ratios and powers are
written and what joins the factors of a term; terms, sums and complex numbers follow from that:
a unit coefficient in front of powers is left out, each sign becomes a minus or stands between
two terms, and an empty sum is a zero.
-/
namespace ExactAlgebra

structure Script where
  ratio : Ratio → String
  power : Power → String
  glue : String

/-- A sign, true for minus, and the text that follows it. -/
abbrev Signed := Bool × String

namespace Signed

def text (s : Signed) : String := if s.1 then "-" ++ s.2 else s.2

def follow (s : Signed) : String := (if s.1 then " - " else " + ") ++ s.2

/-- The members of a sum one after another; a sum without text is a zero. -/
def sum : List Signed → String
  | [] => "0"
  | s :: rest =>
    let out := s.text ++ String.join (rest.map follow)
    if out.isEmpty then "0" else out

end Signed

namespace Script

def signedRatio (script : Script) (r : Ratio) : Signed := (r.isNegative, script.ratio r.abs)

def factor? (script : Script) (r : Ratio) : Option String :=
  if r.abs.isOne then none else some (script.ratio r.abs)

def signedMonomial (script : Script) (m : Monomial) : Signed :=
  if m.powers.isEmpty then script.signedRatio m.coefficient
  else
    (m.coefficient.isNegative,
      script.glue.intercalate
        ((script.factor? m.coefficient).toList ++ m.powers.map script.power))

def monomial (script : Script) (m : Monomial) : String := (script.signedMonomial m).text

def laurent (script : Script) (e : Laurent) : String :=
  Signed.sum (e.terms.map script.signedMonomial ++
    if e.constant.isZero then [] else [script.signedRatio e.constant])

def equation (script : Script) (q : Equation) : String :=
  script.laurent q.left ++ " = " ++ script.laurent q.right

def gaussian (script : Script) (z : Gaussian) : String :=
  Signed.sum ((if z.re.isZero then [] else [script.signedRatio z.re]) ++
    if z.im.isZero then []
    else [(z.im.isNegative, ((script.factor? z.im).getD "") ++ "i")])

end Script

end ExactAlgebra
