import ExactAlgebra.Laurent

/-!
Operands: what may stand beside an expression in arithmetic, or be put in place of a symbol. All
five kinds are expressions of a special shape; `scalar?` gives the number behind an operand that
is free of symbols. Bindings give operands to symbols, each symbol once.
-/
namespace ExactAlgebra

inductive Operand
  | symbol (name : String)
  | integer (n : Int)
  | ratio (r : Ratio)
  | monomial (m : Monomial)
  | laurent (e : Laurent)
deriving DecidableEq

namespace Operand

def toLaurent : Operand → Laurent
  | symbol name => .symbol name
  | integer n => .const (.ofInt n)
  | ratio r => .const r
  | monomial m => .ofMonomial m
  | laurent e => e

def scalar? : Operand → Option Ratio
  | symbol _ => none
  | integer n => some (.ofInt n)
  | ratio r => some r.reduce
  | monomial m => if m.isConstant then some m.coefficient.reduce else none
  | laurent e => e.constantValue?

end Operand

abbrev Bindings := List (String × Operand)

end ExactAlgebra
