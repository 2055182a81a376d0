import ExactAlgebra.Monomial
import ExactAlgebra.Proofs.Tally

/-!
Signatures as exponent vectors. The print order is a total order in which only equal signatures
tie. Multiplying out the powers of a monomial keeps its exponents, and the signature is in order and
holds them, whatever way the powers were written.
-/
namespace ExactAlgebra

/-- A degree for each symbol, zero for all but finitely many. -/
abbrev Exponents := String →₀ ℤ

namespace Signature

/-! The print order compares by three keys in turn; the last alone tells signatures apart. -/

instance : Std.TransCmp compareEntries :=
  inferInstanceAs (Std.TransCmp (compareLex (compareOn Prod.fst) (compareOn Prod.snd)))

instance : Std.LawfulEqCmp compareEntries where
  eq_of_compare {p q} h := by
    rw [compareEntries, Ordering.then_eq_eq] at h
    exact Prod.ext (Std.LawfulEqOrd.eq_of_compare h.1) (Std.LawfulEqOrd.eq_of_compare h.2)

theorem compare_symbols_of_entries {p q : String × ℤ} (h : compareEntries p q = .lt)
    (apart : p.1 ≠ q.1) : compare p.1 q.1 = .lt := by
  rw [compareEntries, Ordering.then_eq_lt] at h
  rcases h with h | ⟨h, _⟩
  · exact h
  · exact absurd (Std.LawfulEqOrd.eq_of_compare h) apart

instance : Std.TransCmp compareDegrees := inferInstanceAs (Std.TransCmp (List.compareLex _))

instance : Std.LawfulEqCmp compareDegrees :=
  inferInstanceAs (Std.LawfulEqCmp (List.compareLex _))

instance : Std.TransCmp fun s t : Signature => compareDegrees s.degrees t.degrees where
  eq_swap := Std.OrientedCmp.eq_swap
  isLE_trans hst htu := @Std.TransCmp.isLE_trans _ compareDegrees _ _ _ _ hst htu

instance : Std.TransOrd Signature :=
  inferInstanceAs (Std.TransCmp (compareLex (fun s t => compareOn maxDegree t s)
    (compareLex (fun s t => compareOn size t s) fun s t => compareDegrees s.degrees t.degrees)))

instance : Std.LawfulEqOrd Signature where
  eq_of_compare {s t} h := by
    have same : compareDegrees s.degrees t.degrees = .eq :=
      (Ordering.then_eq_eq.mp (Ordering.then_eq_eq.mp h).2).2
    exact congrArg Signature.mk (Std.LawfulEqCmp.eq_of_compare same)

def InOrder (s : Signature) : Prop := Tally.InOrder s.degrees

noncomputable def exponents (s : Signature) : Exponents := Tally.total s.degrees

theorem unit_inOrder : unit.InOrder := ⟨.nil, by simp [unit]⟩

@[simp] theorem exponents_unit : unit.exponents = 0 := rfl

theorem InOrder.eq_of_exponents_eq {s t : Signature} (hs : s.InOrder) (ht : t.InOrder)
    (same : s.exponents = t.exponents) : s = t :=
  congrArg Signature.mk (Tally.InOrder.eq_of_total_eq hs ht same)

theorem InOrder.eq_unit_iff {s : Signature} (hs : s.InOrder) :
    s = unit ↔ s.exponents = 0 := by
  constructor
  · rintro rfl
    exact exponents_unit
  · intro h
    exact hs.eq_of_exponents_eq unit_inOrder (h.trans exponents_unit.symm)

theorem InOrder.mem_degrees_iff {s : Signature} (hs : s.InOrder) (symbol : String)
    (degree : ℤ) : (symbol, degree) ∈ s.degrees ↔ s.exponents symbol = degree ∧ degree ≠ 0 :=
  (Tally.InOrder.distinct hs).mem_iff (symbol, degree)

theorem InOrder.mem_symbols_iff {s : Signature} (hs : s.InOrder) (symbol : String) :
    symbol ∈ s.symbols ↔ s.exponents symbol ≠ 0 := by
  rw [symbols, List.mem_map]
  constructor
  · rintro ⟨p, hp, rfl⟩
    have h := (hs.mem_degrees_iff p.1 p.2).mp hp
    rw [h.1]
    exact h.2
  · intro h
    exact ⟨(symbol, s.exponents symbol), (hs.mem_degrees_iff _ _).mpr ⟨rfl, h⟩, rfl⟩

theorem InOrder.symbols_nodup {s : Signature} (hs : s.InOrder) : s.symbols.Nodup :=
  List.pairwise_map.mpr (Tally.InOrder.distinct hs).distinct

theorem InOrder.size_eq {s : Signature} (hs : s.InOrder) :
    s.size = s.exponents.support.card := by
  have members : s.symbols.toFinset = s.exponents.support := by
    ext symbol
    rw [List.mem_toFinset, hs.mem_symbols_iff, Finsupp.mem_support_iff]
  rw [← members, List.toFinset_card_of_nodup hs.symbols_nodup, symbols, List.length_map, size]

theorem InOrder.degrees_of_single {s : Signature} (hs : s.InOrder) {symbol : String} {degree : ℤ}
    (nonzero : degree ≠ 0) (h : s.exponents = Finsupp.single symbol degree) :
    s.degrees = [(symbol, degree)] := by
  have alone : Tally.InOrder [(symbol, degree)] :=
    ⟨List.pairwise_singleton _ _, by simpa using nonzero⟩
  apply Tally.InOrder.eq_of_total_eq hs alone
  rw [Tally.total_cons, Tally.total_nil, add_zero]
  exact h

end Signature

theorem Power.gathers_by_symbol :
    GathersBy Power.hasSymbolOf Power.combine fun p : Power => p.entry.1 where
  alike_iff _ _ := beq_iff_eq
  key_combine _ _ := rfl

namespace Monomial

/-- The degrees of each symbol added up. -/
noncomputable def exponents (m : Monomial) : Exponents := Tally.total (m.powers.map Power.entry)

section Normalization

variable (m : Monomial)

theorem powers_normalize_perm : m.normalize.powers.Perm
    ((gather Power.hasSymbolOf Power.combine m.powers).filter (·.degree != 0)) :=
  sortBy_perm _

@[simp] theorem exponents_normalize : m.normalize.exponents = m.exponents := by
  have dropped : ∀ p ∈ gather Power.hasSymbolOf Power.combine m.powers,
      (p.degree != 0) = false → p.entry.2 = 0 :=
    fun p _ h => bne_eq_false_iff_eq.mp h
  rw [exponents, Tally.total_perm (m.powers_normalize_perm.map _), Tally.total_filter dropped,
    Tally.total_gather Power.gathers_by_symbol fun _ _ => rfl, exponents]

theorem distinct_normalize : Tally.Distinct (m.normalize.powers.map Power.entry) := by
  constructor
  · have gathered := (distinct_gather Power.gathers_by_symbol m.powers).filter (·.degree != 0)
    apply List.pairwise_map.mpr
    exact (m.powers_normalize_perm.pairwise_iff fun h => h.symm).mpr gathered
  · intro entry hentry
    obtain ⟨p, hp, rfl⟩ := List.mem_map.mp hentry
    have kept := (List.mem_filter.mp (m.powers_normalize_perm.mem_iff.mp hp)).2
    exact bne_iff_ne.mp kept

theorem signature_perm : m.signature.degrees.Perm (m.normalize.powers.map Power.entry) :=
  sortBy_perm _

theorem signature_inOrder : m.signature.InOrder := by
  obtain ⟨distinct, nonzero⟩ := m.distinct_normalize
  have apart : (m.normalize.powers.map Power.entry).Pairwise
      fun p q => Signature.compareEntries p q ≠ .eq := by
    apply distinct.imp
    intro p q hne tie
    exact hne (congrArg Prod.fst (Std.LawfulEqCmp.eq_of_compare tie))
  have symbols := (m.signature_perm.pairwise_iff fun h => h.symm).mpr distinct
  constructor
  · exact ((sortBy_increasing _ apart).and symbols).imp
      fun h => Signature.compare_symbols_of_entries h.1 h.2
  · exact fun p hp => nonzero p (m.signature_perm.mem_iff.mp hp)

@[simp] theorem exponents_signature : m.signature.exponents = m.exponents := by
  rw [Signature.exponents, Tally.total_perm m.signature_perm, ← exponents, exponents_normalize]

end Normalization

theorem signature_eq_iff (m n : Monomial) :
    m.signature = n.signature ↔ m.exponents = n.exponents := by
  rw [← exponents_signature m, ← exponents_signature n]
  constructor
  · exact fun h => congrArg Signature.exponents h
  · exact m.signature_inOrder.eq_of_exponents_eq n.signature_inOrder

theorem degreeOf_eq (m : Monomial) (symbol : String) :
    m.degreeOf symbol = m.exponents symbol := by
  unfold degreeOf exponents
  induction m.powers with
  | nil => rfl
  | cons p rest ih =>
    rw [List.map_cons, Tally.total_cons, Finsupp.add_apply, List.filter_cons]
    dsimp only [Power.entry]
    split
    · next h =>
      rw [List.foldr_cons, ih, ← beq_iff_eq.mp h, Finsupp.single_eq_same]
    · next h =>
      rw [ih, Finsupp.single_eq_of_ne' (fun he => h (beq_iff_eq.mpr he)), zero_add]

@[simp] theorem hasSymbol_iff (m : Monomial) (symbol : String) :
    m.hasSymbol symbol = true ↔ m.exponents symbol ≠ 0 := by
  rw [hasSymbol, bne_iff_ne, degreeOf_eq]

theorem symbolCount_eq (m : Monomial) : m.symbolCount = m.exponents.support.card := by
  rw [symbolCount, m.signature_inOrder.size_eq, exponents_signature]

@[simp] theorem exponents_juxtapose (m n : Monomial) :
    (m.juxtapose n).exponents = m.exponents + n.exponents := by
  simp only [exponents, juxtapose, List.map_append, Tally.total_append]

@[simp] theorem exponents_ofPower (p : Power) :
    (ofPower p).exponents = Finsupp.single p.symbol p.degree := by
  rw [ofPower, exponents_normalize]
  simp [exponents, Power.entry]

end Monomial

end ExactAlgebra
