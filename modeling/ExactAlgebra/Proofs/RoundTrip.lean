import ExactAlgebra.Proofs.Acceptance
import ExactAlgebra.Proofs.PlainText

/-!
Reading plain text back. Simplified expressions and equations of single letters come back as they
were, unless in one of their terms the letters of degree one spell a name of the list. There they
come back as one symbol.
-/
namespace ExactAlgebra

open LaurentRing Token

section Comparison

variable {greek : GreekNames} {m : Monomial}

theorem Monomial.length_run (plain : ∀ p ∈ m.powers, p.Plain) :
    m.run.toList.length = m.linear.length := by
  rw [linear_eq plain, List.length_map]

theorem Monomial.total_linear (plain : ∀ p ∈ m.powers, p.Plain) :
    Tally.total (m.linear.map Power.entry) =
      (m.run.toList.map fun c => Finsupp.single (String.singleton c) (1 : ℤ)).sum := by
  rw [Tally.total_map, linear_eq plain, List.map_map]
  rfl

theorem Monomial.long_run (plain : ∀ p ∈ m.powers, p.Plain) (several : 2 ≤ m.linear.length) :
    m.run.toList.length ≠ 1 := by
  rw [length_run plain]
  omega

/-- A symbol that is no single letter does not occur. -/
theorem total_of_long {powers : List Power} (plain : ∀ p ∈ powers, p.Plain) {s : String}
    (long : s.toList.length ≠ 1) : Tally.total (powers.map Power.entry) s = 0 := by
  apply Tally.total_apply_of_absent
  intro entry hentry same
  obtain ⟨p, hp, rfl⟩ := List.mem_map.mp hentry
  obtain ⟨⟨c, -, symbol⟩, -, -⟩ := plain p hp
  apply long
  rw [← same, Power.entry, symbol, String.toList_singleton, List.length_singleton]

theorem Monomial.exponentsRead_eq (some_letter : m.linear ≠ []) : m.exponentsRead greek =
    Tally.total (m.raised.map Power.entry) + greek.exponents m.run.toList := by
  rw [exponentsRead, factors, if_neg some_letter, List.map_append, List.sum_append, List.map_map,
    List.map_singleton, List.sum_singleton, Tally.total_map]
  rfl

theorem Monomial.exponents_eq (normal : m.Normal) (plain : ∀ p ∈ m.powers, p.Plain) :
    m.exponents =
      Tally.total (m.raised.map Power.entry) + Tally.total (m.linear.map Power.entry) := by
  rw [exponents, powers_eq normal plain, List.map_append, Tally.total_append]

theorem Monomial.exponentsRead_of_apart (normal : m.Normal) (plain : ∀ p ∈ m.powers, p.Plain)
    (apart : ¬ m.RunsTogether greek) : m.exponentsRead greek = m.exponents := by
  rw [exponents_eq normal plain]
  by_cases none : m.linear = []
  · rw [exponentsRead, factors, none, if_pos rfl, List.append_nil, List.map_map, Tally.total_map]
    exact (add_zero _).symm
  · rw [exponentsRead_eq none, total_linear plain]
    congr 1
    by_cases alone : m.linear.length = 1
    · obtain ⟨c, letters⟩ := List.length_eq_one_iff.mp ((length_run plain).trans alone)
      rw [letters, greek.exponents_singleton, List.map_singleton, List.sum_singleton]
    · have several : 2 ≤ m.linear.length := by
        have := List.length_pos_iff.mpr none
        omega
      rw [GreekNames.exponents, String.ofList_toList, if_neg fun named => apart ⟨several, named⟩]

/-- Letters that run together come back as one symbol. -/
theorem Monomial.exponentsRead_of_runs (plain : ∀ p ∈ m.powers, p.Plain)
    (runs : m.RunsTogether greek) : m.exponentsRead greek m.run = 1 := by
  obtain ⟨several, named⟩ := runs
  have some_letter : m.linear ≠ [] := List.length_pos_iff.mp (by omega)
  have absent : Tally.total (m.raised.map Power.entry) m.run = 0 :=
    total_of_long (fun p hp => plain p (List.mem_filter.mp hp).1) (long_run plain several)
  rw [exponentsRead_eq some_letter, Finsupp.add_apply, absent, GreekNames.exponents,
    String.ofList_toList, if_pos named, Finsupp.single_eq_same, zero_add]

theorem Denotes.ofChars {cs : List Char} {n : LaurentRing} (h : Denotes greek .sum cs n) :
    ∃ f : Laurent, Laurent.ofChars greek cs = .ok f ∧ f.Normal ∧ f.polynomial = n := by
  obtain ⟨ts, f, e, spelled, derived, built, value⟩ := h
  exact ⟨e, (Formula.Sentence.ofChars ⟨ts, spelled, derived⟩).trans built,
    Formula.toLaurent_normal built, value⟩

namespace Laurent.Legible

variable {e : Laurent} (legible : e.Legible)

include legible

/-- A term whose letters run together is missing from what is read. -/
theorem coeff_polynomialRead (member : m ∈ e.terms) (runs : m.RunsTogether greek) :
    (e.polynomialRead greek).coeff m.exponents = 0 := by
  have normal := legible.normal
  have plain := legible.plain
  have others : ∀ n ∈ e.terms, n.exponentsRead greek ≠ m.exponents := by
    intro n hn same
    by_cases together : n.RunsTogether greek
    · -- the symbol that n got is no letter
      have one := n.exponentsRead_of_runs (plain n hn) together
      rw [same, Monomial.exponents,
        total_of_long (plain m member) (n.long_run (plain n hn) together.1)] at one
      exact zero_ne_one one
    · rw [n.exponentsRead_of_apart (normal.terms n hn).1 (plain n hn) together] at same
      have value := normal.coeff_of_mem hn
      rw [same, normal.coeff_of_mem member] at value
      rw [(normal.terms n hn).1.eq_of_exponents_eq (normal.terms m member).1 same value.symm]
        at together
      exact together runs
  have terms : (e.terms.map (Monomial.polynomialRead greek)).sum.coeff m.exponents = 0 := by
    refine List.sum_induction (fun n : LaurentRing => n.coeff m.exponents = 0) ?_ rfl ?_
    · intro a b ha hb
      rw [AddMonoidAlgebra.coeff_add, Finsupp.add_apply, ha, hb, add_zero]
    · intro a ha
      obtain ⟨n, hn, rfl⟩ := List.mem_map.mp ha
      rw [Monomial.polynomialRead, AddMonoidAlgebra.coeff_single,
        Finsupp.single_eq_of_ne (others n hn).symm]
  rw [polynomialRead, AddMonoidAlgebra.coeff_add, Finsupp.add_apply, terms, coeff_constant,
    if_neg (normal.exponents_ne_zero member), add_zero]

theorem polynomialRead_eq_iff :
    e.polynomialRead greek = e.polynomial ↔ ¬ e.RunsTogether greek := by
  constructor
  · rintro same ⟨m, member, runs⟩
    have counts := legible.normal.coeff_of_mem member
    rw [← same, legible.coeff_polynomialRead member runs] at counts
    exact (legible.normal.terms m member).2.2 counts.symm
  · intro apart
    have terms : e.terms.map (·.polynomialRead greek) = e.terms.map Monomial.polynomial := by
      refine List.map_congr_left fun m member => ?_
      rw [Monomial.polynomialRead, Monomial.exponentsRead_of_apart (legible.normal.terms m member).1
        (legible.plain m member) fun runs => apart ⟨m, member, runs⟩, Monomial.polynomial]
    rw [polynomialRead, terms, polynomial, termsPolynomial]

/-- What denotes the polynomial that an expression has when read is read as the expression itself,
unless letters run together. -/
theorem reads_back {cs : List Char} (written : Denotes greek .sum cs (e.polynomialRead greek)) :
    ∃ f, Laurent.ofChars greek cs = .ok f ∧ f.Normal ∧ (f = e ↔ ¬ e.RunsTogether greek) := by
  obtain ⟨f, read, normal, value⟩ := written.ofChars
  refine ⟨f, read, normal, ?_⟩
  rw [← legible.polynomialRead_eq_iff, ← value]
  exact ⟨fun same => by rw [same], normal.eq_of_polynomial_eq legible.normal⟩

end Laurent.Legible

/-- Blanks between a side and the equals sign are trimmed away. -/
theorem Denotes.padded {cs : List Char} {n : LaurentRing} (h : Denotes greek .sum cs n) :
    (Denotes greek .sum (trimBlanks (cs ++ [' '])) n ∧ '=' ∉ cs ++ [' ']) ∧
      Denotes greek .sum (trimBlanks (' ' :: cs)) n := by
  obtain ⟨ts, f, e, spelled, tree⟩ := h
  have behind : Spells (cs ++ [' ']) ts := by
    have padded := spelled.append (.blank (c := ' ') rfl .nothing) (by rintro c _ d ⟨⟩ ⟨-, ⟨⟩⟩)
    rwa [List.append_nil] at padded
  exact ⟨⟨⟨ts, f, e, behind.trim, tree⟩, behind.no_equals⟩,
    ts, f, e, (spelled.blank (c := ' ') rfl).trim, tree⟩

theorem Equation.toList_text (q : Equation) :
    q.text.toList = (q.left.text.toList ++ [' ']) ++ '=' :: ' ' :: q.right.text.toList := by
  rw [text, Script.equation, String.toList_append, String.toList_append, List.append_assoc,
    List.append_assoc]
  rfl

/-- Plain text is read back, into what it was written from unless letters run together. -/
theorem Laurent.text_read_back (greek : GreekNames) {e : Laurent} {q : Equation}
    (expression : e.Legible) (left : q.left.Legible) (right : q.right.Legible) :
    (∃ f, Laurent.read greek e.text = .ok f ∧ (f = e ↔ ¬ e.RunsTogether greek)) ∧
    ∃ r, Equation.read greek q.text = .ok r ∧
      (r.left = q.left ↔ ¬ q.left.RunsTogether greek) ∧
      (r.right = q.right ↔ ¬ q.right.RunsTogether greek) := by
  constructor
  · obtain ⟨f, read, -, same⟩ := expression.reads_back (expression.text_denotes greek)
    exact ⟨f, read, same⟩
  · obtain ⟨⟨first, no_equals⟩, -⟩ := (left.text_denotes greek).padded
    obtain ⟨-, second⟩ := (right.text_denotes greek).padded
    obtain ⟨f, read, normal, same⟩ := left.reads_back first
    obtain ⟨f', read', normal', same'⟩ := right.reads_back second
    refine ⟨⟨f, f'⟩, ?_, same, same'⟩
    rw [Equation.read, splitAtEquals?_eq_some_iff.mpr ⟨q.toList_text, no_equals⟩]
    simp only [read, read']
    exact congrArg Except.ok (congrArg₂ Equation.mk normal.normalize_eq normal'.normalize_eq)

end Comparison

namespace Laurent

/-- Half of x²y less three. -/
def half : Laurent := ⟨[⟨.ofRat (1 / 2), [⟨"x", 2⟩, ⟨"y", 1⟩]⟩], .ofInt (-3)⟩

/-- The product of m and u. -/
def letterProduct : Laurent := ⟨[⟨.one, [⟨"m", 1⟩, ⟨"u", 1⟩]⟩], .zero⟩

theorem half_legible : half.Legible := by
  refine ⟨by decide +kernel, ?_⟩
  simp only [half, List.forall_mem_cons, List.not_mem_nil, false_imp_iff, implies_true, and_true]
  exact ⟨⟨⟨'x', rfl, rfl⟩, by decide, by decide⟩, ⟨⟨'y', rfl, rfl⟩, by decide, by decide⟩⟩

theorem letterProduct_legible : letterProduct.Legible := by
  refine ⟨by decide +kernel, ?_⟩
  simp only [letterProduct, List.forall_mem_cons, List.not_mem_nil, false_imp_iff, implies_true,
    and_true]
  exact ⟨⟨⟨'m', rfl, rfl⟩, by decide, by decide⟩, ⟨⟨'u', rfl, rfl⟩, by decide, by decide⟩⟩

/-- The half comes back alone and in an equation; the product beside it comes back as a symbol. -/
theorem text_read_back_of_half :
    (half.Legible ∧ letterProduct.Legible) ∧
    half.text = "1/2x^2y - 3" ∧ Laurent.read .standard half.text = .ok half ∧
    (Equation.mk letterProduct half).text = "mu = 1/2x^2y - 3" ∧
    ∃ r, Equation.read .standard (Equation.mk letterProduct half).text = .ok r ∧
      r.left ≠ letterProduct ∧ r.right = half := by
  have apart : ¬ half.RunsTogether .standard := by decide +kernel
  have together : letterProduct.RunsTogether .standard := by decide +kernel
  obtain ⟨⟨f, read, same⟩, r, read', first, second⟩ :=
    text_read_back .standard half_legible (q := ⟨_, _⟩) letterProduct_legible half_legible
  refine ⟨⟨half_legible, letterProduct_legible⟩, by decide +kernel, same.mpr apart ▸ read,
    by decide +kernel, r, read', fun h => first.mp h together, second.mpr apart⟩

end Laurent

end ExactAlgebra
