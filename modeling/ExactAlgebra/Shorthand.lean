import ExactAlgebra.Reading
import ExactAlgebra.Solving
import ExactAlgebra.Tex

/-!
From text to text in one step, with the standard Greek names, style and numeric method.
-/
namespace ExactAlgebra.Shorthand

def expression (text : String) : Except Failure Laurent := Laurent.read .standard text

def equation (text : String) : Except Failure Equation := Equation.read .standard text

def simplify (text : String) : Except Failure Laurent := (expression text).map (·.normalize)

def simplified (text : String) : Except Failure String := (simplify text).map (·.text)

def tex (text : String) : Except Failure String :=
  if text.toList.contains '=' then (equation text).map (·.tex .standard)
  else (expression text).map (·.tex .standard)

def solve (text symbol : String) : Except Failure Solution := do
  let q ← equation text
  q.solveFor symbol

def solved (text symbol : String) : Except Failure String :=
  (solve text symbol).map fun s => symbol ++ " = " ++ s.text

def solvedTex (text symbol : String) : Except Failure String :=
  (solve text symbol).map fun s => symbol ++ " = " ++ s.tex .standard

end ExactAlgebra.Shorthand
