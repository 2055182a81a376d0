import ExactAlgebra.Laurent.Arithmetic

/-!
Isolation of a symbol that stands only as a number times itself: the other terms go to the other
side and are divided by that number. If the symbol has cancelled out, what remains decides.
-/
namespace ExactAlgebra.Laurent

def isMultipleOf (symbol : String) (m : Monomial) : Bool :=
  m.alike (Monomial.ofPower ⟨symbol, 1⟩)

/-- The terms with the symbol, added up. -/
def isolated (e : Laurent) (symbol : String) : Laurent :=
  (e.terms.filter (isMultipleOf symbol)).foldl (fun sum m => sum.add (.ofMonomial m)) zero

/-- The other terms and the constant, on the other side. -/
def remainder (e : Laurent) (symbol : String) : Laurent :=
  (e.terms.filter (!isMultipleOf symbol ·)).foldl (fun sum m => sum.sub (.ofMonomial m))
    (const e.constant.neg)

def isolate (e : Laurent) (symbol : String) : Except Failure Solution :=
  match (e.isolated symbol).terms.head? with
  | some lead =>
    ((e.remainder symbol).divWith true (.ratio lead.coefficient)).map fun solved =>
      match solved.constantValue? with
      | some r => .value r.reduce
      | none => .expression solved
  | none =>
    match (e.remainder symbol).constantValue? with
    | some r => if r.isZero then .ok .anything else .error .noSolution
    | none => .error (.symbolCancels symbol (e.remainder symbol))

end ExactAlgebra.Laurent
