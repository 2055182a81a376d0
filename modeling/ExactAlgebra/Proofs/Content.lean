import ExactAlgebra.Proofs.RationalFunctions

/-!
The greatest monomial that divides every term of a quotient. A number measures another one when an
integer takes it there; in lowest terms this is divisibility of the numerators one way and of the
denominators the other way. So the greatest common divisor of the numerators over the least common
multiple of the denominators measures every coefficient, and every number that does so measures it.
Degrees are the least ones, where these are positive.
-/
namespace ExactAlgebra

/-- An integer takes the first number to the second. -/
def Measures (q c : ℚ) : Prop := ∃ k : ℤ, c = k * q

namespace Measures

variable {q c : ℚ}

theorem refl (q : ℚ) : Measures q q := ⟨1, by rw [Int.cast_one, one_mul]⟩

theorem iff_parts (q c : ℚ) : Measures q c ↔ q.num ∣ c.num ∧ c.den ∣ q.den := by
  constructor
  · rintro ⟨k, rfl⟩
    have crossed := Rat.mul_num_den' k q
    rw [Rat.num_intCast, Rat.den_intCast, Nat.cast_one, mul_one] at crossed
    constructor
    · have coprime : IsCoprime q.num q.den := Int.isCoprime_iff_nat_coprime.mpr q.reduced
      refine coprime.dvd_of_dvd_mul_right ?_
      exact ⟨k * (k * q).den, by rw [crossed]; ring⟩
    · have divides := Rat.mul_den_dvd k q
      rwa [Rat.den_intCast, one_mul] at divides
  · rintro ⟨⟨a, num⟩, ⟨b, den⟩⟩
    refine ⟨a * b, ?_⟩
    have hq : (q.den : ℚ) ≠ 0 := Nat.cast_ne_zero.mpr q.den_nz
    have hc : (c.den : ℚ) ≠ 0 := Nat.cast_ne_zero.mpr c.den_nz
    have parts : (c.num : ℚ) * q.den = a * b * q.num * c.den := by
      rw [num, den]
      push_cast
      ring
    calc c = c.num / c.den := c.num_div_den.symm
      _ = a * b * (q.num / q.den) := by
        rw [← mul_div_assoc, div_eq_div_iff hc hq, parts]
      _ = ((a * b : ℤ) : ℚ) * q := by
        rw [q.num_div_den, Int.cast_mul, Int.cast_natCast]

theorem mul_right_iff {r : ℚ} (nonzero : r ≠ 0) : Measures (q * r) (c * r) ↔ Measures q c := by
  refine exists_congr fun k => ?_
  rw [← mul_assoc, mul_left_inj' nonzero]

/-- Positive numbers that measure each other are equal. -/
theorem antisymm (hq : 0 < q) (hc : 0 < c) (there : Measures q c) (back : Measures c q) :
    q = c := by
  rw [iff_parts] at there back
  apply Rat.ext
  · exact Int.dvd_antisymm (Rat.num_pos.mpr hq).le (Rat.num_pos.mpr hc).le there.1 back.1
  · exact Nat.dvd_antisymm back.2 there.2

end Measures

theorem le_foldl_min (ks : List ℤ) (k start : ℤ) :
    k ≤ ks.foldl min start ↔ k ≤ start ∧ ∀ l ∈ ks, k ≤ l := by
  induction ks generalizing start with
  | nil => simp
  | cons l rest ih => rw [List.foldl_cons, ih, le_min_iff, List.forall_mem_cons, and_assoc]

/-- The exponents and the coefficient of the greatest monomial that divides all terms. A symbol
counts only where it has a positive degree in every term. -/
structure CommonFactor (ts : Set (Exponents × ℚ)) (d : Exponents) (q : ℚ) : Prop where
  positive : 0 < q
  content : ∀ r, (∀ t ∈ ts, Measures r t.2) ↔ Measures r q
  nonneg : ∀ s, 0 ≤ d s
  greatest : ∀ s k, 0 < k → ((∀ t ∈ ts, k ≤ t.1 s) ↔ k ≤ d s)

namespace CommonFactor

variable {ts : Set (Exponents × ℚ)} {d e : Exponents} {q r : ℚ}

theorem le_of_greatest (h : CommonFactor ts d q) (h' : CommonFactor ts e r) (s : String) :
    d s ≤ e s := by
  rcases (h.nonneg s).eq_or_lt with zero | positive
  · rw [← zero]
    exact h'.nonneg s
  · exact (h'.greatest s _ positive).mp ((h.greatest s _ positive).mpr le_rfl)

/-- The terms have one greatest common factor. -/
theorem unique (h : CommonFactor ts d q) (h' : CommonFactor ts e r) : d = e ∧ q = r := by
  constructor
  · exact Finsupp.ext fun s => le_antisymm (h.le_of_greatest h' s) (h'.le_of_greatest h s)
  · apply Measures.antisymm h.positive h'.positive
    · exact (h'.content q).mp ((h.content q).mpr (.refl q))
    · exact (h.content r).mp ((h'.content r).mpr (.refl r))

/-- Terms multiplied by a positive monomial have their greatest factor multiplied by it, if a degree
is raised only where no term has a negative one and lowered no further than the factor's. -/
theorem shift (h : CommonFactor ts d q) (positive : 0 < r)
    (raised : ∀ s, 0 < e s → ∀ t ∈ ts, 0 ≤ t.1 s) (lowered : ∀ s, 0 ≤ d s + e s) :
    CommonFactor ((fun t => (t.1 + e, t.2 * r)) '' ts) (d + e) (q * r) where
  positive := mul_pos h.positive positive
  content p := by
    have scale (c : ℚ) : Measures p (c * r) ↔ Measures (p / r) c := by
      rw [← Measures.mul_right_iff (q := p / r) positive.ne', div_mul_cancel₀ _ positive.ne']
    rw [Set.forall_mem_image, scale, ← h.content]
    exact forall₂_congr fun t _ => scale t.2
  nonneg s := lowered s
  greatest s k count := by
    rw [Set.forall_mem_image]
    simp only [Finsupp.add_apply, ← sub_le_iff_le_add]
    -- a bound that the raise alone reaches holds on both sides, as nothing was negative before
    rcases lt_or_ge 0 (k - e s) with above | below
    · exact h.greatest s _ above
    · have raise : 0 < e s := by omega
      refine iff_of_true (fun t ht => ?_) (below.trans (h.nonneg s))
      exact below.trans (raised s raise t ht)

end CommonFactor

namespace Monomial

section Coefficients

def numeratorGcd (ms : List Monomial) : ℕ :=
  ms.foldl (fun g m => g.gcd m.coefficient.value.num.natAbs) 0

def denominatorLcm (ms : List Monomial) : ℕ :=
  ms.foldl (fun l m => l.lcm m.coefficient.value.den) 1

variable {ms : List Monomial}

theorem dvd_numeratorGcd_iff (d : ℕ) :
    d ∣ numeratorGcd ms ↔ ∀ m ∈ ms, d ∣ m.coefficient.value.num.natAbs := by
  have fold (start : ℕ) : d ∣ ms.foldl (fun g m => g.gcd m.coefficient.value.num.natAbs) start ↔
      d ∣ start ∧ ∀ m ∈ ms, d ∣ m.coefficient.value.num.natAbs := by
    induction ms generalizing start with
    | nil => simp
    | cons m rest ih => rw [List.foldl_cons, ih, Nat.dvd_gcd_iff, List.forall_mem_cons, and_assoc]
  rw [numeratorGcd, fold, and_iff_right (dvd_zero d)]

theorem denominatorLcm_dvd_iff (d : ℕ) :
    denominatorLcm ms ∣ d ↔ ∀ m ∈ ms, m.coefficient.value.den ∣ d := by
  have fold (start : ℕ) : ms.foldl (fun l m => l.lcm m.coefficient.value.den) start ∣ d ↔
      start ∣ d ∧ ∀ m ∈ ms, m.coefficient.value.den ∣ d := by
    induction ms generalizing start with
    | nil => simp
    | cons m rest ih => rw [List.foldl_cons, ih, Nat.lcm_dvd_iff, List.forall_mem_cons, and_assoc]
  rw [denominatorLcm, fold, and_iff_right (one_dvd d)]

theorem denominatorLcm_ne_zero (ms : List Monomial) : denominatorLcm ms ≠ 0 :=
  List.foldlRecOn (motive := (· ≠ 0)) ms _ one_ne_zero
    fun _ hl m _ => Nat.lcm_ne_zero hl m.coefficient.value.den_nz

theorem numeratorGcd_ne_zero (counts : ∃ m ∈ ms, m.coefficient.value ≠ 0) :
    numeratorGcd ms ≠ 0 := by
  obtain ⟨m, member, nonzero⟩ := counts
  intro zero
  have divides := (dvd_numeratorGcd_iff 0).mp (zero_dvd_iff.mpr zero) m member
  exact nonzero (Rat.num_eq_zero.mp (Int.natAbs_eq_zero.mp (Nat.eq_zero_of_zero_dvd divides)))

/-- The divisor of the numerators has no factor in common with any denominator, as these are those
of numbers in lowest terms. -/
theorem numeratorGcd_coprime (ms : List Monomial) :
    (numeratorGcd ms).Coprime (denominatorLcm ms) := by
  refine List.foldlRecOn (motive := Nat.Coprime _) ms _ (Nat.coprime_one_right _) ?_
  intro l hl m member
  have divides := (dvd_numeratorGcd_iff _).mp dvd_rfl m member
  have apart := m.coefficient.value.reduced.coprime_dvd_left divides
  exact (hl.mul_right apart).coprime_dvd_right (Nat.lcm_dvd_mul _ _)

/-- The folds over integers are those over natural numbers. -/
theorem commonCoefficient_eq (ms : List Monomial) : commonCoefficient ms =
    if (numeratorGcd ms : ℤ) = 0 then .one
    else (Ratio.ofParts? (numeratorGcd ms) (denominatorLcm ms)).getD .one := by
  have num : ms.foldl (fun g m => (g.gcd m.coefficient.value.num.natAbs : ℤ)) 0 = numeratorGcd ms :=
    List.foldl_hom Nat.cast fun _ _ => rfl
  have den : ms.foldl (fun l m => (l.lcm m.coefficient.value.den : ℤ)) 1 = denominatorLcm ms :=
    List.foldl_hom Nat.cast fun _ _ => rfl
  simp only [commonCoefficient, num, den]

theorem value_commonCoefficient (counts : ∃ m ∈ ms, m.coefficient.value ≠ 0) :
    (commonCoefficient ms).value = (numeratorGcd ms : ℤ) / (denominatorLcm ms : ℤ) := by
  have num : (numeratorGcd ms : ℤ) ≠ 0 := Int.natCast_ne_zero.mpr (numeratorGcd_ne_zero counts)
  have den : (denominatorLcm ms : ℤ) ≠ 0 := Int.natCast_ne_zero.mpr (denominatorLcm_ne_zero ms)
  rw [commonCoefficient_eq, if_neg num, Ratio.ofParts?, dif_neg den, Option.getD_some,
    Ratio.value_eq]

theorem commonCoefficient_pos (counts : ∃ m ∈ ms, m.coefficient.value ≠ 0) :
    0 < (commonCoefficient ms).value := by
  have num := numeratorGcd_ne_zero counts
  have den := denominatorLcm_ne_zero ms
  rw [value_commonCoefficient counts]
  positivity

/-- The common coefficient measures every coefficient, and what does so measures it. -/
theorem measures_commonCoefficient_iff (counts : ∃ m ∈ ms, m.coefficient.value ≠ 0) (r : ℚ) :
    Measures r (commonCoefficient ms).value ↔ ∀ m ∈ ms, Measures r m.coefficient.value := by
  have positive : (0 : ℤ) < denominatorLcm ms := by
    have den := denominatorLcm_ne_zero ms
    omega
  have coprime : (numeratorGcd ms : ℤ).natAbs.Coprime (denominatorLcm ms : ℤ).natAbs :=
    numeratorGcd_coprime ms
  have num := Rat.num_div_eq_of_coprime positive coprime
  have den := Rat.den_div_eq_of_coprime positive coprime
  rw [← value_commonCoefficient counts] at num den
  rw [Measures.iff_parts, num, Int.natCast_inj.mp den, Int.dvd_natCast, dvd_numeratorGcd_iff,
    denominatorLcm_dvd_iff]
  simp only [Measures.iff_parts, Int.natAbs_dvd_natAbs, forall₂_and]

end Coefficients

section Degrees

/-- The least degree of a symbol in a monomial and in others. -/
noncomputable def leastDegree (m : Monomial) (rest : List Monomial) (s : String) : ℤ :=
  (rest.map (·.degreeOf s)).foldl min (m.exponents s)

variable {m : Monomial} {rest : List Monomial}

theorem le_leastDegree_iff {s : String} {k : ℤ} :
    k ≤ leastDegree m rest s ↔ ∀ n ∈ m :: rest, k ≤ n.exponents s := by
  rw [leastDegree, le_foldl_min, List.forall_mem_cons, List.forall_mem_map]
  simp only [degreeOf_eq]

theorem mem_commonPowers_iff (normal : m.Normal) (p : Power) :
    p ∈ commonPowers (m :: rest) ↔ leastDegree m rest p.symbol = p.degree ∧ 0 < p.degree := by
  rw [commonPowers, List.mem_filterMap]
  simp only [Option.ite_none_right_eq_some, Option.some.injEq]
  constructor
  · rintro ⟨q, hq, positive, rfl⟩
    rw [← ((normal.mem_powers_iff q).mp hq).1] at positive ⊢
    exact ⟨rfl, positive⟩
  · rintro ⟨least, positive⟩
    have degree := le_leastDegree_iff.mp least.ge m List.mem_cons_self
    refine ⟨⟨p.symbol, m.exponents p.symbol⟩, (normal.mem_powers_iff _).mpr ⟨rfl, ?_⟩, ?_, ?_⟩
    · exact (positive.trans_le degree).ne'
    · exact positive.trans_eq least.symm
    · exact congrArg (Power.mk p.symbol) least

theorem distinct_commonPowers (normal : m.Normal) :
    Tally.Distinct ((commonPowers (m :: rest)).map Power.entry) := by
  constructor
  · have symbols := List.pairwise_map.mp normal.distinct
    refine List.pairwise_map.mpr (symbols.filterMap _ ?_)
    intro p q apart p' hp q' hq
    simp only [Option.ite_none_right_eq_some, Option.some.injEq] at hp hq
    rw [← hp.2, ← hq.2]
    exact apart
  · intro entry hentry
    obtain ⟨p, hp, rfl⟩ := List.mem_map.mp hentry
    exact ((mem_commonPowers_iff normal p).mp hp).2.ne'

/-- A symbol has its least degree in the common powers, unless that is negative. -/
theorem exponents_commonPowers (normal : m.Normal) (s : String) :
    Tally.total ((commonPowers (m :: rest)).map Power.entry) s = max 0 (leastDegree m rest s) := by
  have entry (k : ℤ) : (s, k) ∈ (commonPowers (m :: rest)).map Power.entry ↔
      leastDegree m rest s = k ∧ 0 < k := by
    rw [← mem_commonPowers_iff normal ⟨s, k⟩, List.mem_map]
    constructor
    · rintro ⟨⟨t, l⟩, hp, same⟩
      cases same
      exact hp
    · exact fun hp => ⟨⟨s, k⟩, hp, rfl⟩
  -- read at the total and at the least degree, this leaves one value for the total
  simp only [(distinct_commonPowers normal).mem_iff] at entry
  have found := entry (Tally.total ((commonPowers (m :: rest)).map Power.entry) s)
  have least := entry (leastDegree m rest s)
  omega

end Degrees

/-- The exponents and the coefficients of a list of monomials. -/
def entries (ms : List Monomial) : Set (Exponents × ℚ) :=
  {t | ∃ m ∈ ms, (m.exponents, m.coefficient.value) = t}

theorem forall_mem_entries {ms : List Monomial} {P : Exponents × ℚ → Prop} :
    (∀ t ∈ entries ms, P t) ↔ ∀ m ∈ ms, P (m.exponents, m.coefficient.value) := by
  simp [entries]

/-- The common factor of monomials is the greatest one that divides them all. -/
theorem commonFactor_greatest {ms : List Monomial} (normal : ∀ m ∈ ms, m.Normal)
    (counts : ∃ m ∈ ms, m.coefficient.value ≠ 0) :
    CommonFactor (entries ms) (commonFactor ms).exponents (commonFactor ms).coefficient.value := by
  have value : (commonFactor ms).coefficient.value = (commonCoefficient ms).value :=
    Ratio.value_reduce _
  have degrees : (commonFactor ms).exponents = Tally.total ((commonPowers ms).map Power.entry) :=
    exponents_normalize _
  rw [value, degrees]
  cases ms with
  | nil => simp at counts
  | cons m rest =>
    constructor
    · exact commonCoefficient_pos counts
    · intro r
      rw [forall_mem_entries]
      exact (measures_commonCoefficient_iff counts r).symm
    · intro s
      rw [exponents_commonPowers (normal m List.mem_cons_self)]
      exact le_max_left _ _
    · intro s k count
      rw [exponents_commonPowers (normal m List.mem_cons_self), le_max_iff,
        or_iff_right count.not_ge, le_leastDegree_iff, forall_mem_entries]

end Monomial

end ExactAlgebra
