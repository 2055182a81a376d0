import ExactAlgebra.Proofs.Written
import ExactAlgebra.Text

/-!
The polynomial that plain text denotes. A term is written as its coefficient, its raised letters
and then the letters of degree one, side by side. Each of these denotes what it was written from,
except that the letters of degree one denote one symbol where they happen to spell a name of the
list. Expressions are limited to single letters and to degrees that a caret takes.
-/
namespace ExactAlgebra

open LaurentRing Token

/-- A letter with a degree that can be read. -/
structure Power.Plain (p : Power) : Prop where
  letter : ∃ c : Char, c.isAlpha ∧ p.symbol = String.singleton c
  positive : 1 ≤ p.degree
  low : p.degree ≤ 64

namespace Monomial

def raised (m : Monomial) : List Power := m.powers.filter (·.degree != 1)

def linear (m : Monomial) : List Power := m.powers.filter (·.degree == 1)

/-- The letters of degree one in the order of print. -/
def run (m : Monomial) : String := String.join (m.linear.map Power.symbol)

/-- At least two letters of degree one spell a name of the list. -/
def RunsTogether (greek : GreekNames) (m : Monomial) : Prop :=
  2 ≤ m.linear.length ∧ greek.contains m.run

noncomputable def factors (greek : GreekNames) (m : Monomial) : List (List Char × Exponents) :=
  m.raised.map (fun p => (p.text.toList, Finsupp.single p.symbol p.degree)) ++
    if m.linear = [] then [] else [(m.run.toList, greek.exponents m.run.toList)]

/-- The exponents that a term has after it is written and read. -/
noncomputable def exponentsRead (greek : GreekNames) (m : Monomial) : Exponents :=
  ((m.factors greek).map Prod.snd).sum

noncomputable def polynomialRead (greek : GreekNames) (m : Monomial) : LaurentRing :=
  .single (m.exponentsRead greek) m.coefficient.value

end Monomial

/-- A simplified expression of single letters in degrees that can be read. -/
structure Laurent.Legible (e : Laurent) : Prop where
  simplified : e.normalize = e
  plain : ∀ m ∈ e.terms, ∀ p ∈ m.powers, p.Plain

def Laurent.RunsTogether (greek : GreekNames) (e : Laurent) : Prop :=
  ∃ m ∈ e.terms, m.RunsTogether greek

instance (greek : GreekNames) (m : Monomial) : Decidable (m.RunsTogether greek) :=
  inferInstanceAs (Decidable (_ ∧ _))

instance (greek : GreekNames) (e : Laurent) : Decidable (e.RunsTogether greek) :=
  inferInstanceAs (Decidable (∃ m ∈ e.terms, m.RunsTogether greek))

section Numbers

variable {greek : GreekNames} {r : Ratio}

theorem not_letter_of_digits (front : List Char) (m : ℕ) :
    ∀ c ∈ (front ++ Nat.toDigits 10 m).getLast?, ¬ c.isAlpha := by
  intro c last
  rw [List.getLast?_append_of_ne_nil front Nat.toDigits_ne_nil] at last
  have digit := Nat.isDigit_of_mem_toDigits (by decide) (by decide) (List.mem_of_getLast? last)
  rw [(of_isDigit digit).2]
  exact Bool.false_ne_true

theorem toList_toString (m : ℕ) : (toString (m : ℤ)).toList = Nat.toDigits 10 m :=
  String.toList_ofList

/-- A ratio that is not negative is written as a number, or as two with a slash between them. -/
theorem Ratio.text_cases (nonneg : 0 ≤ r.value) :
    (∃ m : ℕ, r.value = m ∧ r.text.toList = Nat.toDigits 10 m) ∨
      ∃ m k : ℕ, k ≠ 0 ∧ r.value = m * (k : ℚ)⁻¹ ∧
        r.text.toList = Nat.toDigits 10 m ++ '/' :: Nat.toDigits 10 k := by
  obtain ⟨m, hm⟩ := Int.eq_ofNat_of_zero_le (Rat.num_nonneg.mpr nonneg)
  have quotient : r.value = m * (r.value.den : ℚ)⁻¹ := by
    rw [← div_eq_mul_inv, ← Int.cast_natCast m, ← hm, Rat.num_div_den]
  unfold text reduce
  split
  · next integer =>
    have divides : r.value.den ∣ m := by
      rw [isInteger, beq_iff_eq] at integer
      exact Int.natCast_dvd_natCast.mp (hm ▸ Int.dvd_of_emod_eq_zero integer)
    have whole : r.value.den = 1 :=
      Nat.Coprime.eq_one_of_dvd (by simpa [hm] using r.value.reduced.symm) divides
    refine .inl ⟨m, by rw [quotient, whole]; simp, ?_⟩
    exact (congrArg _ (congrArg _ hm)).trans (toList_toString m)
  · refine .inr ⟨m, r.value.den, r.value.den_nz, quotient, ?_⟩
    rw [String.toList_append, String.toList_append, ofRat, toList_toString, hm, toList_toString,
      List.append_assoc]
    rfl

theorem Ratio.piece (nonneg : 0 ≤ r.value) :
    Piece greek r.text.toList (constant r.value) := by
  obtain ⟨m, value, text⟩ | ⟨m, k, nonzero, value, text⟩ := text_cases nonneg
  · rw [text, value]
    exact .of_signed (Denotes.number m).primary
  · rw [text, value, constant_mul]
    exact (Piece.of_signed (Denotes.number m).primary).div nonzero

theorem Ratio.not_letter_of_text (nonneg : 0 ≤ r.value) :
    ∀ c ∈ r.text.toList.getLast?, ¬ c.isAlpha := by
  obtain ⟨m, -, text⟩ | ⟨m, k, -, -, text⟩ := text_cases nonneg
  · rw [text]
    exact not_letter_of_digits [] m
  · rw [text, ← List.singleton_append, ← List.append_assoc]
    exact not_letter_of_digits _ k

end Numbers

section Terms

variable {greek : GreekNames} {m : Monomial}

theorem toList_intercalate_empty (texts : List String) :
    ("".intercalate texts).toList = texts.flatMap String.toList := by
  induction texts with
  | nil => rfl
  | cons text texts ih =>
    cases texts with
    | nil => simp [String.intercalate_singleton]
    | cons other texts =>
      rw [String.intercalate_cons_cons, String.toList_append, String.toList_append, ih,
        String.toList_empty, List.append_nil, List.flatMap_cons (x := text)]

theorem Monomial.powers_eq (normal : m.Normal) (plain : ∀ p ∈ m.powers, p.Plain) :
    m.powers = m.raised ++ m.linear := by
  unfold raised linear
  have ordered := normal.ordered
  generalize m.powers = powers at plain ordered
  induction powers with
  | nil => rfl
  | cons p powers ih =>
    obtain ⟨first, others⟩ := List.forall_mem_cons.mp plain
    obtain ⟨before, ordered⟩ := List.pairwise_cons.mp ordered
    by_cases one : p.degree = 1
    · -- what comes after a letter of degree one has degree one too
      have all : ∀ q ∈ p :: powers, q.degree = 1 := by
        refine List.forall_mem_cons.mpr ⟨one, fun q hq => ?_⟩
        have positive := (others q hq).positive
        obtain less | ⟨same, -⟩ := before q hq <;> omega
      rw [List.filter_eq_nil_iff.mpr fun q hq => by simpa using all q hq,
        List.filter_eq_self.mpr fun q hq => by simpa using all q hq, List.nil_append]
    · rw [List.filter_cons_of_pos (by simpa using one), List.filter_cons_of_neg
        (by simpa using one), List.cons_append, ← ih others ordered]

theorem Power.text_raised {p : Power} (plain : p.Plain) (high : p.degree ≠ 1) :
    ∃ (c : Char) (k : ℕ), c.isAlpha ∧ p.symbol = String.singleton c ∧ p.degree = k ∧ k ≤ 64 ∧
      p.text.toList = c :: '^' :: Nat.toDigits 10 k := by
  obtain ⟨⟨c, letter, symbol⟩, positive, low⟩ := plain
  obtain ⟨k, hk⟩ := Int.eq_ofNat_of_zero_le (by omega : 0 ≤ p.degree)
  refine ⟨c, k, letter, symbol, hk, by omega, ?_⟩
  rw [text, if_neg high, symbol, hk, String.toList_append, String.toList_append,
    String.toList_singleton, toList_toString]
  rfl

/-- A unit coefficient is left out in front of factors; any other stands before the first. -/
theorem Ratio.piece_of_factors (r : Ratio) {factors : List (List Char × Exponents)}
    (some_factor : factors ≠ [])
    (denote : ∀ f ∈ factors, f.1 ≠ [] ∧ Denotes greek .factor f.1 (.single f.2 1))
    (meet : (factors.map Prod.fst).IsChain Meet) :
    Piece greek ((Script.plain.factor? r).toList.flatMap String.toList ++
      factors.flatMap Prod.fst) (.single (factors.map Prod.snd).sum |r.value|) := by
  have value : (.single (factors.map Prod.snd).sum |r.value| : LaurentRing) =
      constant r.abs.value * .single (factors.map Prod.snd).sum 1 := by
    rw [constant, AddMonoidAlgebra.single_mul_single, zero_add, mul_one, value_abs]
  have nonneg : 0 ≤ r.abs.value := by
    rw [value_abs]
    exact abs_nonneg _
  rw [value, Script.factor?]
  split
  · next one =>
    -- the first factor begins the term
    obtain ⟨f, others, same⟩ := List.exists_cons_of_ne_nil some_factor
    rw [same] at denote meet ⊢
    obtain ⟨first, rest⟩ := List.forall_mem_cons.mp denote
    have whole := (Piece.of_signed first.2.leading).juxtapose_all rest meet
    rw [AddMonoidAlgebra.single_mul_single, mul_one] at whole
    rwa [(isOne_iff _).mp one, constant_one, one_mul, List.map_cons, List.sum_cons]
  · have chain : (r.abs.text.toList :: factors.map Prod.fst).IsChain Meet :=
      List.isChain_cons.mpr ⟨fun _ _ => .of_last (not_letter_of_text nonneg), meet⟩
    rw [Option.toList_some, List.flatMap_singleton]
    exact (piece nonneg).juxtapose_all denote chain

namespace Monomial

/-- The characters of the run are the letters of degree one. -/
theorem linear_eq (plain : ∀ p ∈ m.powers, p.Plain) :
    m.linear = m.run.toList.map fun c => ⟨String.singleton c, 1⟩ := by
  have letters : ∀ p ∈ m.linear, p.Plain ∧ p.degree = 1 := by
    intro p hp
    obtain ⟨member, one⟩ := List.mem_filter.mp hp
    exact ⟨plain p member, by simpa using one⟩
  rw [run, String.toList_join, List.flatMap_map]
  generalize m.linear = powers at letters
  induction powers with
  | nil => rfl
  | cons p powers ih =>
    obtain ⟨⟨⟨⟨c, -, symbol⟩, -, -⟩, one⟩, others⟩ := List.forall_mem_cons.mp letters
    obtain ⟨s, d⟩ := p
    obtain rfl : s = String.singleton c := symbol
    obtain rfl : d = 1 := one
    rw [List.flatMap_cons, String.toList_singleton, List.singleton_append, List.map_cons,
      ← ih others]

theorem run_letters (plain : ∀ p ∈ m.powers, p.Plain) : ∀ c ∈ m.run.toList, c.isAlpha := by
  intro c member
  have power : ⟨String.singleton c, 1⟩ ∈ m.linear := by
    rw [linear_eq plain]
    exact List.mem_map_of_mem member
  obtain ⟨⟨d, letter, symbol⟩, -, -⟩ := plain _ (List.mem_filter.mp power).1
  rwa [String.singleton_inj.mp symbol]

theorem run_ne_nil (plain : ∀ p ∈ m.powers, p.Plain) (some_letter : m.linear ≠ []) :
    m.run.toList ≠ [] := by
  intro none
  rw [linear_eq plain, none] at some_letter
  exact some_letter rfl

theorem text_linear (plain : ∀ p ∈ m.powers, p.Plain) :
    (m.linear.map Power.text).flatMap String.toList = m.run.toList := by
  rw [linear_eq plain, List.map_map, List.flatMap_map]
  simp [Power.text]

theorem text_factors (greek : GreekNames) (normal : m.Normal)
    (plain : ∀ p ∈ m.powers, p.Plain) :
    (m.powers.map Power.text).flatMap String.toList = (m.factors greek).flatMap Prod.fst := by
  rw [powers_eq normal plain, List.map_append, List.flatMap_append, text_linear plain, factors,
    List.flatMap_append, List.flatMap_map, List.flatMap_map]
  congr 1
  split
  · next none => rw [run, none]; rfl
  · exact (List.flatMap_singleton ..).symm

theorem factors_ne_nil (greek : GreekNames) (normal : m.Normal) (some_power : m.powers ≠ [])
    (plain : ∀ p ∈ m.powers, p.Plain) : m.factors greek ≠ [] := by
  intro none
  rw [factors, List.append_eq_nil_iff, List.map_eq_nil_iff] at none
  rw [powers_eq normal plain, none.1, List.nil_append] at some_power
  have empty := none.2
  rw [if_neg some_power] at empty
  cases empty

theorem exists_of_mem_raised (plain : ∀ p ∈ m.powers, p.Plain) {p : Power} (hp : p ∈ m.raised) :
    ∃ (c : Char) (k : ℕ), c.isAlpha ∧ p.symbol = String.singleton c ∧ p.degree = k ∧ k ≤ 64 ∧
      p.text.toList = c :: '^' :: Nat.toDigits 10 k := by
  obtain ⟨member, high⟩ := List.mem_filter.mp hp
  exact Power.text_raised (plain p member) (by simpa using high)

/-- Every factor can be read. -/
theorem factors_denote (greek : GreekNames) (plain : ∀ p ∈ m.powers, p.Plain) :
    ∀ f ∈ m.factors greek, f.1 ≠ [] ∧ Denotes greek .factor f.1 (.single f.2 1) := by
  rw [factors, List.forall_mem_append]
  constructor
  · intro f hf
    obtain ⟨p, hp, rfl⟩ := List.mem_map.mp hf
    obtain ⟨c, k, letter, symbol, degree, low, text⟩ := exists_of_mem_raised plain hp
    rw [text, symbol, degree]
    exact ⟨List.cons_ne_nil _ _, .pow letter low⟩
  · split
    · nofun
    · next some_letter =>
      have some_char := run_ne_nil plain some_letter
      exact List.forall_mem_singleton.mpr
        ⟨some_char, (Denotes.name some_char (run_letters plain)).factor⟩

/-- No letters meet where one factor follows another: only the last one may end with a letter. -/
theorem factors_meet (greek : GreekNames) (plain : ∀ p ∈ m.powers, p.Plain) :
    ((m.factors greek).map Prod.fst).IsChain Meet := by
  have digits : ∀ cs ∈ m.raised.map (fun p => p.text.toList), ∀ more, Meet cs more := by
    intro cs hcs more
    obtain ⟨p, hp, rfl⟩ := List.mem_map.mp hcs
    obtain ⟨c, k, -, -, -, -, text⟩ := exists_of_mem_raised plain hp
    apply Meet.of_last
    rw [text]
    exact not_letter_of_digits [c, '^'] k
  rw [factors, List.map_append, List.map_map, List.isChain_append]
  refine ⟨?_, ?_, ?_⟩
  · exact (List.pairwise_of_forall_mem_list fun cs hcs more _ => digits cs hcs more).isChain
  · split
    · exact List.isChain_nil
    · exact List.isChain_singleton _
  · exact fun cs last more _ => digits cs (List.mem_of_getLast? last) more

/-- The text of a term without its sign. -/
theorem piece (normal : m.Normal) (some_power : m.powers ≠ [])
    (plain : ∀ p ∈ m.powers, p.Plain) :
    Piece greek (Script.plain.signedMonomial m).2.toList
      (.single (m.exponentsRead greek) |m.coefficient.value|) := by
  rw [Script.signedMonomial, if_neg (by simpa using some_power), exponentsRead]
  change Piece greek ("".intercalate _).toList _
  rw [toList_intercalate_empty, List.flatMap_append]
  change Piece greek (_ ++ (m.powers.map Power.text).flatMap String.toList) _
  rw [text_factors greek normal plain]
  exact m.coefficient.piece_of_factors (factors_ne_nil greek normal some_power plain)
    (factors_denote greek plain) (factors_meet greek plain)

end Monomial

end Terms

section Sums

variable {greek : GreekNames} {s : Signed} {cs : List Char} {n k : LaurentRing}

/-- A member of a sum can be read behind its sign. -/
def Stands (greek : GreekNames) (s : Signed) (n : LaurentRing) : Prop :=
  Piece greek s.2.toList (if s.1 then -n else n)

theorem Stands.text (h : Stands greek s n) : Denotes greek .product s.text.toList n := by
  obtain ⟨sign, body⟩ := s
  cases sign with
  | false => exact h.plain
  | true => simpa [Signed.text] using h.negated

theorem Stands.follow (h : Stands greek s k) (before : Denotes greek .sum cs n) :
    Denotes greek .sum (cs ++ s.follow.toList) (n + k) := by
  obtain ⟨sign, body⟩ := s
  cases sign with
  | false => simpa [Signed.follow] using before.add h.plain
  | true => simpa [Signed.follow] using before.sub h.plain

theorem follow_all {rest : List Signed} {values : List LaurentRing}
    (h : List.Forall₂ (Stands greek) rest values) (before : Denotes greek .sum cs n) :
    Denotes greek .sum (cs ++ (String.join (rest.map Signed.follow)).toList) (n + values.sum) := by
  induction h generalizing cs n with
  | nil => simpa using before
  | cons first _ ih =>
    have whole := ih (first.follow before)
    rwa [List.append_assoc, add_assoc, ← String.toList_append, ← String.join_cons,
      ← List.map_cons, ← List.sum_cons] at whole

/-- The text of a sum denotes the sum of its members, and no member at all is a zero. -/
theorem sum_denotes {pieces : List Signed} {values : List LaurentRing}
    (h : List.Forall₂ (Stands greek) pieces values) :
    Denotes greek .sum (Signed.sum pieces).toList values.sum := by
  cases h with
  | nil =>
    have zero : Denotes greek .primary (Nat.toDigits 10 0) (constant (0 : ℕ)) := .number 0
    rw [Nat.cast_zero, constant_zero] at zero
    exact zero.primary.signed.product
  | @cons s n rest values first others =>
    have whole := follow_all others first.text.product
    rw [← String.toList_append] at whole
    have some_char : ¬ (s.text ++ String.join (rest.map Signed.follow)).isEmpty := by
      rw [String.isEmpty_iff, ← String.toList_inj]
      exact whole.ne_nil
    rwa [Signed.sum, if_neg some_char]

/-- The sign of the coefficient stands in front of what its magnitude gives. -/
theorem stands_of_magnitude {body : String} {d : Exponents} (r : Ratio)
    (magnitude : Piece greek body.toList (.single d |r.value|)) :
    Stands greek (r.isNegative, body) (.single d r.value) := by
  unfold Stands
  cases sign : r.isNegative with
  | true => rwa [abs_of_neg (r.isNegative_iff.mp sign), AddMonoidAlgebra.single_neg] at magnitude
  | false =>
    have nonneg : 0 ≤ r.value :=
      not_lt.mp fun negative => by simp [r.isNegative_iff.mpr negative] at sign
    rwa [abs_of_nonneg nonneg] at magnitude

/-- The polynomial of an expression after it is written and read. -/
noncomputable def Laurent.polynomialRead (greek : GreekNames) (e : Laurent) : LaurentRing :=
  (e.terms.map (·.polynomialRead greek)).sum + .constant e.constant.value

theorem Monomial.stands {m : Monomial} (normal : m.Normal) (some_power : m.powers ≠ [])
    (plain : ∀ p ∈ m.powers, p.Plain) :
    Stands greek (Script.plain.signedMonomial m) (m.polynomialRead greek) := by
  have sign : Script.plain.signedMonomial m =
      (m.coefficient.isNegative, (Script.plain.signedMonomial m).2) := by
    rw [Script.signedMonomial, if_neg (by simpa using some_power)]
  rw [sign]
  exact stands_of_magnitude _ (m.piece normal some_power plain)

theorem Ratio.stands (r : Ratio) :
    Stands greek (Script.plain.signedRatio r) (constant r.value) := by
  refine stands_of_magnitude _ ?_
  rw [← value_abs]
  exact piece (r.value_abs ▸ abs_nonneg _)

/-- A member that is left out when its number is zero. -/
theorem Stands.unless_zero (h : Stands greek s n) {r : Ratio} (counts : r.value = 0 → n = 0) :
    ∃ values, List.Forall₂ (Stands greek) (if r.isZero then [] else [s]) values ∧
      values.sum = n := by
  split
  · next zero => exact ⟨[], .nil, (counts ((Ratio.isZero_iff _).mp zero)).symm⟩
  · exact ⟨[n], .cons h .nil, List.sum_singleton⟩

namespace Laurent

variable {e : Laurent}

theorem Legible.normal (legible : e.Legible) : e.Normal := legible.simplified ▸ e.normalize_normal

theorem Legible.text_denotes (legible : e.Legible) (greek : GreekNames) :
    Denotes greek .sum e.text.toList (e.polynomialRead greek) := by
  have terms : List.Forall₂ (Stands greek) (e.terms.map Script.plain.signedMonomial)
      (e.terms.map (·.polynomialRead greek)) := by
    rw [List.forall₂_map_left_iff, List.forall₂_map_right_iff, List.forall₂_same]
    intro m hm
    obtain ⟨normal, some_power, -⟩ := legible.normal.terms m hm
    exact m.stands normal some_power (legible.plain m hm)
  have stands : Stands greek _ _ := e.constant.stands
  obtain ⟨values, member, total⟩ := stands.unless_zero
    fun zero => (congrArg _ zero).trans constant_zero
  have whole := sum_denotes (List.rel_append terms member)
  rwa [List.sum_append, total] at whole

end Laurent

end Sums

end ExactAlgebra
