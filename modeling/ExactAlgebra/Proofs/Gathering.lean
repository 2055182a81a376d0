import ExactAlgebra.Gathering
import Mathlib

/-!
What gathering and sorting keep. Combining like entries leaves one entry for each key and keeps
every sum that takes a combined entry for the two it was made of. Sorting permutes, and where no
two entries tie the outcome depends on the entries alone; dropping repeated entries keeps each of
them once.
-/
namespace ExactAlgebra

variable {α κ M : Type}

section Merging

variable {alike : α → α → Bool} {combine : α → α → α}

/-- Entries are alike when they have one key, and combining keeps the key. -/
structure GathersBy (alike : α → α → Bool) (combine : α → α → α) (key : α → κ) : Prop where
  alike_iff : ∀ a b, alike a b = true ↔ key a = key b
  key_combine : ∀ a b, key (combine a b) = key a

theorem forall_mem_mergeInto {P : α → Prop} {a : α} {entries : List α}
    (closed : ∀ a b, P a → P b → P (combine a b)) (ha : P a) (h : ∀ b ∈ entries, P b) :
    ∀ b ∈ mergeInto alike combine a entries, P b := by
  induction entries with
  | nil => simpa [mergeInto] using ha
  | cons b rest ih =>
    obtain ⟨hb, hrest⟩ := List.forall_mem_cons.mp h
    simp only [mergeInto]
    split
    · exact List.forall_mem_cons.mpr ⟨closed b a hb ha, hrest⟩
    · exact List.forall_mem_cons.mpr ⟨hb, ih hrest⟩

theorem sum_mergeInto [AddCommMonoid M] {value : α → M}
    (additive : ∀ a b, alike a b = true → value (combine a b) = value a + value b) (a : α)
    (entries : List α) :
    ((mergeInto alike combine a entries).map value).sum = value a + (entries.map value).sum := by
  induction entries with
  | nil => simp [mergeInto]
  | cons b rest ih =>
    simp only [mergeInto]
    split
    · next same =>
      simp only [List.map_cons, List.sum_cons, additive b a same]
      rw [add_comm (value b), add_assoc]
    · simp only [List.map_cons, List.sum_cons, ih]
      rw [add_left_comm]

theorem key_of_mem_mergeInto {key : α → κ} (by_key : GathersBy alike combine key) {a b : α}
    {entries : List α} (member : b ∈ mergeInto alike combine a entries) :
    key b = key a ∨ ∃ c ∈ entries, key c = key b := by
  induction entries with
  | nil =>
    rw [mergeInto, List.mem_singleton] at member
    exact .inl (congrArg key member)
  | cons c rest ih =>
    simp only [mergeInto] at member
    split at member
    · rcases List.mem_cons.mp member with rfl | member
      · exact .inr ⟨c, List.mem_cons_self, (by_key.key_combine c a).symm⟩
      · exact .inr ⟨b, List.mem_cons_of_mem _ member, rfl⟩
    · rcases List.mem_cons.mp member with rfl | member
      · exact .inr ⟨b, List.mem_cons_self, rfl⟩
      · rcases ih member with h | ⟨d, hd, h⟩
        · exact .inl h
        · exact .inr ⟨d, List.mem_cons_of_mem _ hd, h⟩

theorem distinct_mergeInto {key : α → κ} (by_key : GathersBy alike combine key) (a : α)
    {entries : List α} (distinct : entries.Pairwise fun b c => key b ≠ key c) :
    (mergeInto alike combine a entries).Pairwise fun b c => key b ≠ key c := by
  induction entries with
  | nil => exact List.pairwise_singleton _ _
  | cons b rest ih =>
    obtain ⟨first, tail⟩ := List.pairwise_cons.mp distinct
    simp only [mergeInto]
    split
    · refine List.pairwise_cons.mpr ⟨?_, tail⟩
      intro c hc
      rw [by_key.key_combine]
      exact first c hc
    · next unlike =>
      refine List.pairwise_cons.mpr ⟨?_, ih tail⟩
      intro c hc same
      rcases key_of_mem_mergeInto by_key hc with h | ⟨d, hd, h⟩
      · exact unlike ((by_key.alike_iff b a).mpr (same.trans h))
      · exact first d hd (same.trans h.symm)

end Merging

section Gather

variable {alike : α → α → Bool} {combine : α → α → α}

/-- What holds of the empty list and stays through every merge holds of what is gathered. -/
theorem gather_induction {P : List α → Prop} {entries : List α} (empty : P [])
    (step : ∀ a ∈ entries, ∀ gathered, P gathered → P (mergeInto alike combine a gathered)) :
    P (gather alike combine entries) := by
  have run : ∀ gathered, P gathered →
      P (entries.foldl (fun gathered a => mergeInto alike combine a gathered) gathered) := by
    induction entries with
    | nil => exact fun _ h => h
    | cons a rest ih =>
      obtain ⟨first, others⟩ := List.forall_mem_cons.mp step
      exact fun gathered h => ih others _ (first gathered h)
  exact run [] empty

theorem distinct_gather {key : α → κ} (by_key : GathersBy alike combine key) (entries : List α) :
    (gather alike combine entries).Pairwise fun b c => key b ≠ key c :=
  gather_induction .nil fun a _ _ h => distinct_mergeInto by_key a h

theorem forall_mem_gather {P : α → Prop} (closed : ∀ a b, P a → P b → P (combine a b))
    {entries : List α} (h : ∀ a ∈ entries, P a) : ∀ a ∈ gather alike combine entries, P a :=
  gather_induction (P := fun gathered => ∀ a ∈ gathered, P a) (by simp)
    fun a ha _ hg => forall_mem_mergeInto closed (h a ha) hg

theorem sum_gather [AddCommMonoid M] {value : α → M}
    (additive : ∀ a b, alike a b = true → value (combine a b) = value a + value b)
    (entries : List α) :
    ((gather alike combine entries).map value).sum = (entries.map value).sum := by
  have run (gathered : List α) :
      ((entries.foldl (fun merged a => mergeInto alike combine a merged) gathered).map value).sum =
        (gathered.map value).sum + (entries.map value).sum := by
    induction entries generalizing gathered with
    | nil => simp
    | cons a rest ih =>
      rw [List.foldl_cons, ih, sum_mergeInto additive, List.map_cons, List.sum_cons,
        add_comm (value a), add_assoc]
  simpa [gather] using run []

end Gather

section Sorting

variable {order : α → α → Ordering}

theorem insertBy_perm (a : α) (entries : List α) :
    (insertBy order a entries).Perm (a :: entries) := by
  induction entries with
  | nil => exact .refl _
  | cons b rest ih =>
    simp only [insertBy]
    split
    · exact (ih.cons b).trans (.swap a b rest)
    · exact .refl _

theorem sortBy_perm (entries : List α) : (sortBy order entries).Perm entries := by
  induction entries with
  | nil => exact .refl _
  | cons a rest ih => exact (insertBy_perm a _).trans (ih.cons a)

theorem insertBy_increasing [Std.TransCmp order] {a : α} {entries : List α}
    (increasing : entries.Pairwise fun b c => order b c = .lt)
    (apart : ∀ b ∈ entries, order a b ≠ .eq) :
    (insertBy order a entries).Pairwise fun b c => order b c = .lt := by
  induction entries with
  | nil => exact List.pairwise_singleton _ _
  | cons b rest ih =>
    obtain ⟨first, tail⟩ := List.pairwise_cons.mp increasing
    obtain ⟨unequal, others⟩ := List.forall_mem_cons.mp apart
    simp only [insertBy]
    split
    · next after =>
      refine List.pairwise_cons.mpr ⟨?_, ih tail others⟩
      intro c hc
      rcases List.mem_cons.mp ((insertBy_perm a rest).mem_iff.mp hc) with rfl | hc
      · exact Std.OrientedCmp.lt_of_gt after
      · exact first c hc
    · next before =>
      -- nothing ties with the new entry, so what does not come after it comes before it
      have less : order a b = .lt := by
        cases h : order a b with
        | lt => rfl
        | eq => exact absurd h unequal
        | gt => exact absurd h before
      refine List.pairwise_cons.mpr ⟨?_, increasing⟩
      intro c hc
      rcases List.mem_cons.mp hc with rfl | hc
      · exact less
      · exact Std.TransCmp.lt_trans less (first c hc)

/-- Entries that do not tie are put into increasing order. -/
theorem sortBy_increasing (order : α → α → Ordering) [Std.TransCmp order] {entries : List α}
    (apart : entries.Pairwise fun a b => order a b ≠ .eq) :
    (sortBy order entries).Pairwise fun a b => order a b = .lt := by
  induction entries with
  | nil => exact .nil
  | cons a rest ih =>
    obtain ⟨first, tail⟩ := List.pairwise_cons.mp apart
    refine insertBy_increasing (ih tail) ?_
    intro b hb
    exact first b ((sortBy_perm rest).mem_iff.mp hb)

/-- Two lists in increasing order with the same members are the same list. -/
theorem eq_of_increasing (order : α → α → Ordering) [Std.OrientedCmp order]
    {entries more : List α}
    (he : entries.Pairwise fun a b => order a b = .lt)
    (hm : more.Pairwise fun a b => order a b = .lt) (same : ∀ a, a ∈ entries ↔ a ∈ more) :
    entries = more := by
  have nodup : ∀ {list : List α}, (list.Pairwise fun a b => order a b = .lt) → list.Nodup := by
    intro list increasing
    apply increasing.imp
    rintro a b less rfl
    have tie : order a a = .eq := Std.ReflCmp.compare_self
    rw [tie] at less
    cases less
  have perm : entries.Perm more :=
    (List.perm_ext_iff_of_nodup (nodup he) (nodup hm)).mpr same
  apply perm.eq_of_pairwise _ he hm
  intro a b _ _ less greater
  rw [Std.OrientedCmp.gt_iff_lt.mpr less] at greater
  cases greater

end Sorting

section Distinct

variable [Ord α] [Std.LawfulEqOrd α] {b : α}

theorem mem_insertDistinct {a : α} {entries : List α} :
    b ∈ insertDistinct a entries ↔ b = a ∨ b ∈ entries := by
  induction entries with
  | nil => simp [insertDistinct]
  | cons c rest ih =>
    rw [insertDistinct]
    split
    · exact List.mem_cons
    · next tie => simp [Std.LawfulEqOrd.eq_of_compare tie]
    · simp only [List.mem_cons, ih, or_left_comm]

theorem mem_sortedDistinct {entries : List α} : b ∈ sortedDistinct entries ↔ b ∈ entries := by
  induction entries with
  | nil => exact Iff.rfl
  | cons a rest ih =>
    change b ∈ insertDistinct a (sortedDistinct rest) ↔ _
    rw [mem_insertDistinct, ih, List.mem_cons]

end Distinct

end ExactAlgebra
