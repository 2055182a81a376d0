/-!
Lists brought into one form. Like entries are combined, each in the place of the first one, and
entries are sorted by a comparison, those that tie in the order they had.
-/
namespace ExactAlgebra

variable {α : Type}

/-- Combine an entry with the first one alike, or put it at the end. -/
def mergeInto (alike : α → α → Bool) (combine : α → α → α) (a : α) : List α → List α
  | [] => [a]
  | b :: rest => if alike b a then combine b a :: rest else b :: mergeInto alike combine a rest

def gather (alike : α → α → Bool) (combine : α → α → α) (entries : List α) : List α :=
  entries.foldl (fun gathered a => mergeInto alike combine a gathered) []

/-- Place an entry in front of the first one that it does not come after. -/
def insertBy (order : α → α → Ordering) (a : α) : List α → List α
  | [] => [a]
  | b :: rest => if order a b = .gt then b :: insertBy order a rest else a :: b :: rest

def sortBy (order : α → α → Ordering) (entries : List α) : List α :=
  entries.foldr (insertBy order) []

def insertDistinct [Ord α] (a : α) : List α → List α
  | [] => [a]
  | b :: rest =>
    match compare a b with
    | .lt => a :: b :: rest
    | .eq => b :: rest
    | .gt => b :: insertDistinct a rest

def sortedDistinct [Ord α] (entries : List α) : List α := entries.foldr insertDistinct []

end ExactAlgebra
