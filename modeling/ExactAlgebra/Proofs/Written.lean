import ExactAlgebra.Proofs.Lowering
import ExactAlgebra.Proofs.Parsing

/-!
The polynomial that a text denotes. Numbers, names, powers, products and sums that are put together
from texts denote what the parts denote, put together in the same way, as long as no letter comes
right behind a letter.
-/
namespace ExactAlgebra

open LaurentRing

open Formula Token

/-- A text of a category of the grammar that is read as an expression with this polynomial. -/
def Denotes (greek : GreekNames) (c : Category) (cs : List Char) (n : LaurentRing) : Prop :=
  ∃ ts f e, Spells cs ts ∧ Derives c ts f ∧ f.toLaurent greek = .ok e ∧ e.polynomial = n

namespace Denotes

variable {greek : GreekNames} {c d : Category} {cs more : List Char} {n k : LaurentRing}

theorem imp (h : Denotes greek c cs n) (rule : ∀ ts f, Derives c ts f → Derives d ts f) :
    Denotes greek d cs n := by
  obtain ⟨ts, f, e, spelled, derived, built, value⟩ := h
  exact ⟨ts, f, e, spelled, rule ts f derived, built, value⟩

theorem ne_nil (h : Denotes greek c cs n) : cs ≠ [] := by
  obtain ⟨ts, f, e, spelled, derived, -, -⟩ := h
  obtain ⟨t, us, rfl, -⟩ := derived.first
  rintro rfl
  have read := spelled.ofChars?_eq derived.separated
  rw [Token.ofChars?] at read
  cases read

theorem product (h : Denotes greek .product cs n) : Denotes greek .sum cs n :=
  h.imp fun _ _ => .product

theorem signed (h : Denotes greek .signed cs n) : Denotes greek .product cs n :=
  h.imp fun _ _ => .signed

theorem primary (h : Denotes greek .primary cs n) : Denotes greek .signed cs n :=
  h.imp fun _ _ => .primary

theorem factor (h : Denotes greek .atom cs n) : Denotes greek .factor cs n :=
  h.imp fun _ _ => .factor

/-- A factor may stand at the beginning of a product too. -/
theorem leading (h : Denotes greek .factor cs n) : Denotes greek .signed cs n := by
  refine h.imp fun ts f derived => ?_
  cases derived with
  | factor only => exact .primary (.atom only)
  | factorPow base exponent => exact .pow (.atom base) exponent

theorem number (m : ℕ) : Denotes greek .primary (Nat.toDigits 10 m) (constant m) :=
  ⟨_, _, _, (Lexeme.natural m).spells, .number m 0, rfl, polynomial_whole m⟩

theorem name {letters : List Char} (some_letter : letters ≠ []) (ascii : ∀ c ∈ letters, c.isAlpha) :
    Denotes greek .atom letters (.single (greek.exponents letters) 1) :=
  ⟨_, _, _, (Lexeme.name some_letter ascii).spells, .name _, rfl, polynomial_name rfl⟩

theorem pow {c : Char} {m : ℕ} (letter : c.isAlpha) (low : m ≤ 64) :
    Denotes greek .factor (c :: '^' :: Nat.toDigits 10 m)
      (.single (Finsupp.single (String.singleton c) (m : ℤ)) 1) := by
  have exponent : Spells ('^' :: Nat.toDigits 10 m) [.caret, .number m 0] :=
    .sign rfl (Lexeme.natural m).spells
  have spelled : Spells ([c] ++ '^' :: Nat.toDigits 10 m)
      [.name (String.ofList [c]), .caret, .number m 0] :=
    .token (.name (List.cons_ne_nil c []) (List.forall_mem_singleton.mpr letter))
      (by rintro - d ⟨⟩; decide) exponent
  have whole : (Formula.name (String.ofList [c])).lastLetter? greek = none := by
    simp [lastLetter?]
  have raised := (toLaurent_pow whole rfl low).trans (Laurent.powWith_of_le true _ low)
  refine ⟨_, _, _, spelled, .factorPow (.name _) (.primary (.number m 0)), raised, ?_⟩
  rw [Laurent.polynomial_pow, @polynomial_name greek [c] _ rfl, greek.exponents_singleton,
    AddMonoidAlgebra.single_pow, one_pow, Finsupp.smul_single, nsmul_one]

theorem neg (h : Denotes greek .signed cs n) : Denotes greek .signed ('-' :: cs) (-n) := by
  obtain ⟨ts, f, e, spelled, derived, built, rfl⟩ := h
  refine ⟨_, .neg f, e.neg, .sign rfl spelled, .neg derived, ?_, e.polynomial_neg⟩
  rw [Formula.toLaurent, built]
  rfl

theorem div {m : ℕ} (h : Denotes greek .product cs n) (nonzero : m ≠ 0) :
    Denotes greek .product (cs ++ '/' :: Nat.toDigits 10 m) (n * constant (m : ℚ)⁻¹) := by
  obtain ⟨ts, f, e, spelled, derived, built, rfl⟩ := h
  have scalar : (Operand.laurent (.const (decimal m 0))).scalar? = some (.ofRat m) :=
    Laurent.constantValue?_of_constant (polynomial_whole m)
  obtain ⟨g, divided, quotient⟩ :=
    Laurent.divWith_of_ne_zero true (e := e) scalar (by simpa using nonzero)
  have spelled' : Spells ('/' :: Nat.toDigits 10 m) [.slash, .number m 0] :=
    .sign rfl (Lexeme.natural m).spells
  refine ⟨_, .div f (.number m 0), g.normalize, spelled.append spelled' ?_,
    .div derived (.primary (.number m 0)), ?_, ?_⟩
  · rintro c _ d ⟨⟩ ⟨-, letter⟩
    cases letter
  · rw [Formula.toLaurent, built]
    exact divided
  · rw [Laurent.polynomial_normalize, quotient, Ratio.value_ofRat]

theorem juxtapose (h : Denotes greek .product cs n) (next : Denotes greek .factor more k)
    (meet : Meet cs more) : Denotes greek .product (cs ++ more) (n * k) := by
  obtain ⟨ts, f, e, spelled, derived, built, rfl⟩ := h
  obtain ⟨us, g, e', spelled', derived', built', rfl⟩ := next
  refine ⟨ts ++ us, .mul f g, e.mul e', spelled.append spelled' meet, .juxtaposed derived derived',
    ?_, Laurent.polynomial_mul e e'⟩
  rw [Formula.toLaurent, built, built']
  rfl

theorem add (h : Denotes greek .sum cs n) (next : Denotes greek .product more k) :
    Denotes greek .sum (cs ++ ' ' :: '+' :: ' ' :: more) (n + k) := by
  obtain ⟨ts, f, e, spelled, derived, built, rfl⟩ := h
  obtain ⟨us, g, e', spelled', derived', built', rfl⟩ := next
  refine ⟨_, .add f g, e.add e', spelled.join rfl spelled', .add derived derived', ?_,
    Laurent.polynomial_add e e'⟩
  rw [Formula.toLaurent, built, built']
  rfl

theorem sub (h : Denotes greek .sum cs n) (next : Denotes greek .product more k) :
    Denotes greek .sum (cs ++ ' ' :: '-' :: ' ' :: more) (n - k) := by
  obtain ⟨ts, f, e, spelled, derived, built, rfl⟩ := h
  obtain ⟨us, g, e', spelled', derived', built', rfl⟩ := next
  refine ⟨_, .sub f g, e.sub e', spelled.join rfl spelled', .sub derived derived', ?_,
    Laurent.polynomial_sub e e'⟩
  rw [Formula.toLaurent, built, built']
  rfl

end Denotes

/-- A text that may begin a sum, with or without a minus in front of it. -/
structure Piece (greek : GreekNames) (cs : List Char) (n : LaurentRing) : Prop where
  plain : Denotes greek .product cs n
  negated : Denotes greek .product ('-' :: cs) (-n)

namespace Piece

variable {greek : GreekNames} {cs more : List Char} {n k : LaurentRing}

theorem of_signed (h : Denotes greek .signed cs n) : Piece greek cs n := ⟨h.signed, h.neg.signed⟩

theorem div {m : ℕ} (h : Piece greek cs n) (nonzero : m ≠ 0) :
    Piece greek (cs ++ '/' :: Nat.toDigits 10 m) (n * constant (m : ℚ)⁻¹) := by
  refine ⟨h.plain.div nonzero, ?_⟩
  rw [← neg_mul]
  exact h.negated.div nonzero

theorem juxtapose (h : Piece greek cs n) (next : Denotes greek .factor more k)
    (meet : Meet cs more) : Piece greek (cs ++ more) (n * k) := by
  refine ⟨h.plain.juxtapose next meet, ?_⟩
  rw [← neg_mul]
  exact h.negated.juxtapose next (meet.cons (by decide))

/-- Factors that follow one another where no letters meet. -/
theorem juxtapose_all (h : Piece greek cs n) {factors : List (List Char × Exponents)}
    (next : ∀ f ∈ factors, f.1 ≠ [] ∧ Denotes greek .factor f.1 (.single f.2 1))
    (meet : (cs :: factors.map Prod.fst).IsChain Meet) :
    Piece greek (cs ++ factors.flatMap Prod.fst) (n * .single (factors.map Prod.snd).sum 1) := by
  induction factors generalizing cs n with
  | nil =>
    rw [List.flatMap_nil, List.append_nil]
    exact (mul_one n).symm ▸ h
  | cons f factors ih =>
    obtain ⟨⟨some_char, factor⟩, others⟩ := List.forall_mem_cons.mp next
    rw [List.map_cons, List.isChain_cons_cons] at meet
    have chain : ((cs ++ f.1) :: factors.map Prod.fst).IsChain Meet := by
      obtain ⟨follows, rest⟩ := List.isChain_cons.mp meet.2
      exact List.isChain_cons.mpr ⟨fun d hd => (follows d hd).append some_char, rest⟩
    have whole := ih (h.juxtapose factor meet.1) others chain
    rwa [List.append_assoc, mul_assoc, AddMonoidAlgebra.single_mul_single, mul_one] at whole

end Piece

end ExactAlgebra
