import ExactAlgebra.Formula
import ExactAlgebra.Proofs.Arithmetic

/-!
The expressions that formulas stand for. Building one fails only at a divisor or at an exponent, so
never because of the text that the formula was read from, and what is built is in normal form.
-/
namespace ExactAlgebra

open LaurentRing

/-- A failure, if there is one, is not about the text. -/
def AboutValues {α : Type} (x : Except Failure α) : Prop :=
  ∀ failure, x = .error failure → failure.kind ≠ .unreadable

namespace AboutValues

variable {α β : Type}

theorem ok (a : α) : AboutValues (.ok a : Except Failure α) := nofun

theorem bind {x : Except Failure α} {k : α → Except Failure β} (first : AboutValues x)
    (rest : ∀ a, AboutValues (k a)) : AboutValues (x >>= k) := by
  cases x with
  | error failure =>
    rintro _ ⟨⟩
    exact first failure rfl
  | ok a => exact rest a

theorem orDivisionByZero (x : Option α) : AboutValues (orDivisionByZero x) := by
  cases x with
  | none => rintro _ ⟨⟩; decide
  | some a => exact ok a

theorem div (e f : Laurent) : AboutValues (e.div f) := by
  unfold Laurent.div Laurent.divWith
  split
  · rintro _ ⟨⟩; nofun
  · exact orDivisionByZero _

theorem pow (e : Laurent) (n : Nat) : AboutValues (e.pow n) := by
  unfold Laurent.pow Laurent.powWith
  split
  · rintro _ ⟨⟩; nofun
  · exact ok _

/-- Building an expression fails only at a divisor or at an exponent. -/
theorem toLaurent (greek : GreekNames) (f : Formula) : AboutValues (f.toLaurent greek) := by
  induction f with
  | number | name => exact ok _
  | add _ _ left right | sub _ _ left right | mul _ _ left right =>
    exact left.bind fun _ => right.bind fun _ => ok _
  | div _ _ left right => exact left.bind fun _ => right.bind fun _ => div _ _
  | neg _ operand => exact operand.bind fun _ => ok _
  | pow base exponent left right =>
    refine right.bind fun e => ?_
    split
    · rintro _ ⟨⟩; nofun
    · split
      · exact (pow _ _).bind fun _ => ok _
      · exact left.bind fun _ => pow _ _

end AboutValues

namespace Laurent

theorem polynomial_letters (cs : List Char) : (letters cs).polynomial =
    .single (cs.map fun c => Finsupp.single (String.singleton c) (1 : ℤ)).sum 1 := by
  have product (e : Laurent) :
      (cs.foldl (fun e c => e.mul (symbol (String.singleton c))) e).polynomial = e.polynomial *
        .single (cs.map fun c => Finsupp.single (String.singleton c) (1 : ℤ)).sum 1 := by
    induction cs generalizing e with
    | nil => exact (mul_one _).symm
    | cons c cs ih =>
      rw [List.foldl_cons, ih, polynomial_mul, polynomial_symbol, LaurentRing.symbol, mul_assoc,
        AddMonoidAlgebra.single_mul_single, mul_one, List.map_cons, List.sum_cons]
  rw [letters, product, polynomial_one, one_mul]

theorem letters_normal (cs : List Char) : (letters cs).Normal := by
  have product {e : Laurent} (normal : e.Normal) :
      (cs.foldl (fun e c => e.mul (symbol (String.singleton c))) e).Normal := by
    induction cs generalizing e with
    | nil => exact normal
    | cons c cs ih => exact ih (mul_normal _ _)
  exact product (const_normal _)

end Laurent

/-- What a run of letters stands for: a symbol of that name, or the product of its letters. -/
noncomputable def GreekNames.exponents (greek : GreekNames) (letters : List Char) : Exponents :=
  if greek.contains (String.ofList letters) then Finsupp.single (String.ofList letters) 1
  else (letters.map fun c => Finsupp.single (String.singleton c) 1).sum

theorem GreekNames.exponents_singleton (greek : GreekNames) (c : Char) :
    greek.exponents [c] = Finsupp.single (String.singleton c) 1 := by
  unfold exponents
  split
  · rw [String.singleton_eq_ofList]
  · exact List.sum_singleton

namespace Formula

variable {greek : GreekNames}

/-- What is built from a formula is in normal form. -/
theorem toLaurent_normal {f : Formula} {e : Laurent}
    (built : f.toLaurent greek = .ok e) : e.Normal := by
  induction f generalizing e with
  | number =>
    cases built
    exact Laurent.const_normal _
  | name letters =>
    cases built
    split
    · exact Laurent.normalize_normal _
    · exact Laurent.letters_normal _
  | add | sub | mul =>
    obtain ⟨e, -, built⟩ := exists_of_bind built
    obtain ⟨e', -, built⟩ := exists_of_bind built
    cases built
    exact Laurent.normalize_normal _
  | div =>
    obtain ⟨e, -, built⟩ := exists_of_bind built
    obtain ⟨e', -, built⟩ := exists_of_bind built
    exact Laurent.divWith_normal built
  | neg _ ih =>
    obtain ⟨e, operand, built⟩ := exists_of_bind built
    cases built
    exact (ih operand).neg
  | pow =>
    obtain ⟨e, -, built⟩ := exists_of_bind built
    split at built
    · cases built
    · split at built
      · obtain ⟨g, -, rfl⟩ := exists_of_map built
        exact Laurent.normalize_normal _
      · obtain ⟨b, -, built⟩ := exists_of_bind built
        exact Laurent.powWith_normal built

theorem polynomial_whole (m : ℕ) : (Laurent.const (decimal m 0)).polynomial = constant m := by
  rw [Laurent.polynomial_const, Ratio.value_eq]
  simp [decimal]

theorem polynomial_name {letters : List Char} {e : Laurent}
    (built : (Formula.name (String.ofList letters)).toLaurent greek = .ok e) :
    e.polynomial = .single (greek.exponents letters) 1 := by
  cases built
  unfold GreekNames.exponents
  split
  · rw [Laurent.polynomial_symbol, LaurentRing.symbol]
  · rw [String.toList_ofList, Laurent.polynomial_letters]

theorem exponent?_whole {m : ℕ} (low : m ≤ 64) :
    (Laurent.const (decimal m 0)).exponent? = some m := by
  have bound : m < 4294967296 := by omega
  rw [Laurent.exponent?, Laurent.constantValue?_of_constant (polynomial_whole m)]
  simp [Ratio.isInteger, Ratio.ofRat, Ratio.reduce, Ratio.value, naturalExponent?, bound]

/-- A base that is raised as a whole, under an exponent within the limit. -/
theorem toLaurent_pow {f : Formula} {b : Laurent} {m : ℕ} (whole : f.lastLetter? greek = none)
    (base : f.toLaurent greek = .ok b) (low : m ≤ 64) :
    (Formula.pow f (.number m 0)).toLaurent greek = b.pow m := by
  simp only [toLaurent, bind, Except.bind, exponent?_whole low, whole, base]

end Formula

end ExactAlgebra
