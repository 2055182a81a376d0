import ExactAlgebra.Proofs.Gathering

/-!
Lists of keyed amounts as finitely supported functions. The total of a list adds its entries up as
single-point functions; gathering, sorting and dropping zero amounts keep it. When the keys are
distinct and no amount is zero, the entries are the points where the total is not zero, so a list
with increasing keys is determined by its total.
-/
namespace ExactAlgebra.Tally

variable {α κ ν : Type}

/-- The amounts of a list of entries, added up for each key. -/
noncomputable def total [AddCommMonoid ν] (entries : List (κ × ν)) : κ →₀ ν :=
  (entries.map fun entry => Finsupp.single entry.1 entry.2).sum

/-- Every key once, and every amount counts. -/
structure Distinct [Zero ν] (entries : List (κ × ν)) : Prop where
  distinct : entries.Pairwise fun p q => p.1 ≠ q.1
  nonzero : ∀ p ∈ entries, p.2 ≠ 0

structure InOrder [Ord κ] [Zero ν] (entries : List (κ × ν)) : Prop where
  increasing : entries.Pairwise fun p q => compare p.1 q.1 = .lt
  nonzero : ∀ p ∈ entries, p.2 ≠ 0

section Total

variable [AddCommMonoid ν]

@[simp] theorem total_nil : total ([] : List (κ × ν)) = 0 := rfl

@[simp] theorem total_cons (entry : κ × ν) (entries : List (κ × ν)) :
    total (entry :: entries) = Finsupp.single entry.1 entry.2 + total entries := by
  simp [total]

theorem total_append (entries more : List (κ × ν)) :
    total (entries ++ more) = total entries + total more := by
  simp [total]

theorem total_perm {entries more : List (κ × ν)} (same : entries.Perm more) :
    total entries = total more :=
  (same.map _).sum_eq

theorem total_apply_of_absent {entries : List (κ × ν)} {key : κ}
    (absent : ∀ p ∈ entries, p.1 ≠ key) : total entries key = 0 := by
  induction entries with
  | nil => rfl
  | cons p rest ih =>
    have hp : p.1 ≠ key := absent p List.mem_cons_self
    rw [total_cons, Finsupp.add_apply, Finsupp.single_eq_of_ne' hp, zero_add]
    exact ih fun r hr => absent r (List.mem_cons_of_mem _ hr)

theorem total_map (entry : α → κ × ν) (list : List α) :
    total (list.map entry) = (list.map fun a => Finsupp.single (entry a).1 (entry a).2).sum := by
  rw [total, List.map_map]
  rfl

theorem total_gather {entry : α → κ × ν} {alike : α → α → Bool} {combine : α → α → α}
    (by_key : GathersBy alike combine fun a => (entry a).1)
    (additive : ∀ a b, (entry (combine a b)).2 = (entry a).2 + (entry b).2) (list : List α) :
    total ((gather alike combine list).map entry) = total (list.map entry) := by
  rw [total_map, total_map]
  apply sum_gather
  intro a b same
  rw [by_key.key_combine, additive, Finsupp.single_add, (by_key.alike_iff a b).mp same]

theorem total_filter {entry : α → κ × ν} {keep : α → Bool} {list : List α}
    (dropped : ∀ a ∈ list, keep a = false → (entry a).2 = 0) :
    total ((list.filter keep).map entry) = total (list.map entry) := by
  induction list with
  | nil => rfl
  | cons a rest ih =>
    obtain ⟨first, others⟩ := List.forall_mem_cons.mp dropped
    rw [List.filter_cons, List.map_cons, total_cons, ← ih others]
    split
    · rw [List.map_cons, total_cons]
    · next h => rw [first (Bool.eq_false_of_not_eq_true h), Finsupp.single_zero, zero_add]

end Total

section Reading

variable [AddCommMonoid ν] {entries : List (κ × ν)} {p : κ × ν}

theorem Distinct.total_apply (h : Distinct entries) (member : p ∈ entries) :
    total entries p.1 = p.2 := by
  obtain ⟨distinct, nonzero⟩ := h
  induction entries with
  | nil => cases member
  | cons q rest ih =>
    obtain ⟨first, tail⟩ := List.pairwise_cons.mp distinct
    rw [total_cons, Finsupp.add_apply]
    rcases List.mem_cons.mp member with rfl | hp
    · rw [Finsupp.single_eq_same, total_apply_of_absent fun r hr => (first r hr).symm, add_zero]
    · rw [Finsupp.single_eq_of_ne (first p hp).symm, zero_add]
      exact ih hp tail fun r hr => nonzero r (List.mem_cons_of_mem _ hr)

/-- The entries are the points where the total is not zero. -/
theorem Distinct.mem_iff (h : Distinct entries) (p : κ × ν) :
    p ∈ entries ↔ total entries p.1 = p.2 ∧ p.2 ≠ 0 := by
  constructor
  · intro member
    exact ⟨h.total_apply member, h.nonzero p member⟩
  · rintro ⟨value, nonzero⟩
    by_contra absent
    apply nonzero
    rw [← value]
    apply total_apply_of_absent
    intro r hr he
    have hr' : r = p := Prod.ext he (by rw [← value, ← he, h.total_apply hr])
    exact absent (hr' ▸ hr)

/-- A product over the entries is one over the points of the total. -/
theorem Distinct.prod_total {N : Type} [CommMonoid N] (h : Distinct entries) {g : κ → ν → N}
    (unit : ∀ key, g key 0 = 1) :
    (total entries).prod g = (entries.map fun p => g p.1 p.2).prod := by
  obtain ⟨distinct, nonzero⟩ := h
  induction entries with
  | nil => simp
  | cons p rest ih =>
    obtain ⟨first, tail⟩ := List.pairwise_cons.mp distinct
    have absent : total rest p.1 = 0 := total_apply_of_absent fun r hr => (first r hr).symm
    have disjoint : Disjoint (Finsupp.single p.1 p.2).support (total rest).support := by
      apply Finset.disjoint_of_subset_left Finsupp.support_single_subset
      simpa using absent
    rw [total_cons, Finsupp.prod_add_index_of_disjoint disjoint, Finsupp.prod_single_index (unit _),
      List.map_cons, List.prod_cons, ih tail fun r hr => nonzero r (List.mem_cons_of_mem _ hr)]

end Reading

section Order

variable [Ord κ] {entries more : List (κ × ν)}

theorem InOrder.distinct [Std.ReflOrd κ] [Zero ν] (h : InOrder entries) : Distinct entries := by
  refine ⟨h.increasing.imp ?_, h.nonzero⟩
  intro p q less same
  rw [same, Std.ReflOrd.compare_self] at less
  cases less

/-- Two lists with increasing keys and the same totals are the same list. -/
theorem InOrder.eq_of_total_eq [Std.OrientedOrd κ] [AddCommMonoid ν] (he : InOrder entries)
    (hm : InOrder more) (same : total entries = total more) : entries = more := by
  apply eq_of_increasing (compareOn Prod.fst) he.increasing hm.increasing
  intro p
  rw [he.distinct.mem_iff, hm.distinct.mem_iff, same]

end Order

end ExactAlgebra.Tally
