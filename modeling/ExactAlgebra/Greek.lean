import ExactAlgebra.Gathering

/-!
Names of several letters that stand for one symbol. Any other run of letters is a product of
one-letter symbols, and in TeX a name of the list is a command.
-/
namespace ExactAlgebra

/-- A list of distinct names in increasing order. -/
structure GreekNames where
  names : List String
deriving DecidableEq

namespace GreekNames

def ofList (names : List String) : GreekNames := ⟨sortedDistinct names⟩

def contains (greek : GreekNames) (name : String) : Bool := greek.names.contains name

def standard : GreekNames := ofList
  ["alpha", "beta", "gamma", "delta", "epsilon", "zeta", "eta", "theta", "iota", "kappa",
    "lambda", "mu", "nu", "xi", "omicron", "pi", "rho", "sigma", "tau", "upsilon", "phi", "chi",
    "psi", "omega", "Gamma", "Delta", "Theta", "Lambda", "Xi", "Pi", "Sigma", "Upsilon", "Phi",
    "Psi", "Omega"]

end GreekNames

end ExactAlgebra
