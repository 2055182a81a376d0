import ExactAlgebra.Proofs.Grammar
import ExactAlgebra.Proofs.Readers

/-!
The readers find exactly the derivations of the grammar. A derivation is found in front of every
token that does not go on with it, by induction on the derivation. What is read is derived, by
induction on the tokens that are left. So what a reader leaves over behind a sign or a caret without
an operand is taken up by no rule around it.
-/
namespace ExactAlgebra.Formula

open Token

section Completeness

variable {c : Category} {ts : List Token} {f : Formula}

/-- The next token is no caret. -/
def EndsPower (rest : List Token) : Prop := ∀ t ∈ rest.head?, t ≠ .caret

/-- The next token does not go on with a product. -/
def EndsProduct (rest : List Token) : Prop :=
  ∀ t ∈ rest.head?, t ≠ .caret ∧ t.productSign? = none ∧ ¬ t.startsFactor

/-- Readers find a derivation in front of everything that does not go on with it, and sums and
products then try to go on from its tree. -/
def Found : Category → List Token → Formula → Prop
  | .sum, ts, f => ∀ rest, EndsProduct rest → leadingSum (ts ++ rest) = some (sumFrom f rest)
  | .product, ts, f => ∀ rest, EndsPower rest →
    leadingProduct (ts ++ rest) = some (productFrom f rest)
  | .signed, ts, f => ∀ rest, EndsPower rest → leadingSigned (ts ++ rest) = some (f, rest)
  | .factor, ts, f => ∀ rest, EndsPower rest → leadingPower (ts ++ rest) = some (f, rest)
  | .primary, ts, f | .atom, ts, f => ∀ rest, leadingPrimary (ts ++ rest) = some (f, rest)

theorem EndsProduct.productFrom {rest : List Token} (ends : EndsProduct rest) :
    productFrom f rest = (f, rest) := by
  cases rest with
  | nil => exact productFrom_nil
  | cons t rest => exact productFrom_stop (ends t rfl).2.1 (ends t rfl).2.2

theorem EndsProduct.endsPower {rest : List Token} (ends : EndsProduct rest) : EndsPower rest :=
  fun t first => (ends t first).1

theorem EndsPower.exponentFrom {rest : List Token} (ends : EndsPower rest) :
    exponentFrom f rest = (f, rest) := by
  match rest with
  | [] => rfl
  | t :: rest =>
    cases t
    case caret => exact absurd rfl (ends _ rfl)
    all_goals rfl

theorem Found.join_product {us : List Token} {g : Formula} {t : Token}
    {join : Formula → Formula → Formula} (sign : t.productSign? = some join)
    (left : Found .product ts f) (right : Found .signed us g) :
    Found .product (ts ++ t :: us) (join f g) := by
  intro rest ends
  have before : EndsPower (t :: (us ++ rest)) := by
    rintro u ⟨⟩ rfl
    cases sign
  rw [List.append_assoc, List.cons_append, left _ before, productFrom_sign sign, right rest ends]

theorem Found.join_sum {us : List Token} {g : Formula} {t : Token}
    {join : Formula → Formula → Formula} (sign : t.sumSign? = some join)
    (left : Found .sum ts f) (right : Found .product us g) :
    Found .sum (ts ++ t :: us) (join f g) := by
  intro rest ends
  have before : EndsProduct (t :: (us ++ rest)) := by
    rintro u ⟨⟩
    cases t <;> first | decide | cases sign
  rw [List.append_assoc, List.cons_append, left _ before, sumFrom_sign sign,
    right rest ends.endsPower, ends.productFrom]

theorem leadingPower_only {rest : List Token} (ends : EndsPower rest)
    (base : leadingPrimary (ts ++ rest) = some (f, rest)) :
    leadingPower (ts ++ rest) = some (f, rest) := by
  rw [leadingPower_eq, base, Option.map_some, ends.exponentFrom]

theorem leadingPower_pow {us rest : List Token} {g : Formula}
    (base : leadingPrimary (ts ++ .caret :: (us ++ rest)) = some (f, .caret :: (us ++ rest)))
    (exponent : leadingSigned (us ++ rest) = some (g, rest)) :
    leadingPower (ts ++ .caret :: us ++ rest) = some (.pow f g, rest) := by
  rw [List.append_assoc, List.cons_append, leadingPower_eq, base, Option.map_some, exponentFrom,
    exponent]

theorem Derives.leadingSigned_eq {rest : List Token} (derived : Derives .primary ts f) :
    leadingSigned (ts ++ rest) = leadingPower (ts ++ rest) := by
  obtain ⟨t, us, rfl, begins⟩ := derived.first
  refine leadingSigned_power ?_
  rintro u ⟨⟩ rfl
  obtain begins | begins := begins <;> cases begins

/-- Every derivation is found. -/
theorem Derives.found (derived : Derives c ts f) : Found c ts f := by
  induction derived with
  | product _ ih =>
    intro rest ends
    rw [leadingSum_eq, ih rest ends.endsPower, ends.productFrom]
    rfl
  | add _ _ left right => exact left.join_sum rfl right
  | sub _ _ left right => exact left.join_sum rfl right
  | signed _ ih =>
    intro rest ends
    rw [leadingProduct_eq, ih rest ends]
    rfl
  | mul _ _ left right => exact left.join_product rfl right
  | div _ _ left right => exact left.join_product rfl right
  | juxtaposed _ second left right =>
    intro rest ends
    obtain ⟨t, us, rfl, begins⟩ := second.first
    -- the second factor begins with a token that raises nothing, so the first one ends before it
    have before : EndsPower (t :: us ++ rest) := by
      rintro u ⟨⟩ rfl
      cases begins
    rw [List.append_assoc, left _ before, List.cons_append, productFrom_factor begins,
      ← List.cons_append, right rest ends]
  | neg _ ih =>
    intro rest ends
    rw [List.cons_append, leadingSigned_minus, ih rest ends]
    rfl
  | primary only ih =>
    intro rest ends
    rw [only.leadingSigned_eq, leadingPower_only ends (ih rest)]
  | pow base _ left right =>
    intro rest ends
    rw [List.append_assoc, base.leadingSigned_eq, ← List.append_assoc,
      leadingPower_pow (left _) (right rest ends)]
  | factor _ ih => exact fun rest ends => leadingPower_only ends (ih rest)
  | factorPow _ _ left right =>
    exact fun rest ends => leadingPower_pow (left _) (right rest ends)
  | number => exact fun rest => leadingPrimary_number
  | atom _ ih => exact ih
  | name => exact fun rest => leadingPrimary_name
  | bracket _ ih =>
    intro rest
    rw [List.cons_append, List.cons_append, leadingPrimary_bracket, List.append_assoc,
      List.singleton_append, ih _ (by rintro u ⟨⟩; decide), sumFrom_stop rfl]
    rfl

theorem Found.ofTokens?_eq (found : Found .sum ts f) : ofTokens? ts = some f := by
  have result := found [] nofun
  rw [List.append_nil, sumFrom_nil] at result
  obtain ⟨⟨g, rest, shorter⟩, read, same⟩ := Option.map_eq_some_iff.mp result
  cases same
  rw [ofTokens?, read]

end Completeness

section Soundness

variable {ts : List Token} {f : Formula}

-- The measures are those of the readers: a rule may call one further down on the same tokens.
mutual

theorem leadingSum_sound {ts rest : List Token} {f : Formula}
    (read : leadingSum ts = some (f, rest)) :
    ∃ used, used ++ rest = ts ∧ Derives .sum used f := by
  rw [leadingSum_eq] at read
  obtain ⟨⟨g, middle⟩, first, others⟩ := Option.map_eq_some_iff.mp read
  have shorter := length_lt first
  obtain ⟨used, rfl, derived⟩ := leadingProduct_sound first
  obtain ⟨more, rfl, whole⟩ := sumFrom_sound (.product derived) others
  exact ⟨used ++ more, List.append_assoc .., whole⟩
termination_by 8 * ts.length + 6

theorem sumFrom_sound {used ts rest : List Token} {left f : Formula}
    (derived : Derives .sum used left) (read : sumFrom left ts = (f, rest)) :
    ∃ more, more ++ rest = ts ∧ Derives .sum (used ++ more) f := by
  obtain stop | ⟨t, us, join, g, middle, rfl, sign, next, step⟩ :=
    sumFrom_cases left ts
  · cases stop.symm.trans read
    exact ⟨[], rfl, by rwa [List.append_nil]⟩
  · have shorter := length_lt next
    rw [step] at read
    obtain ⟨operand, rfl, right⟩ := leadingProduct_sound next
    obtain ⟨more, rfl, whole⟩ := sumFrom_sound (derived.join_sum sign right) read
    exact ⟨t :: operand ++ more, by rw [List.append_assoc, List.cons_append],
      by rwa [List.append_assoc] at whole⟩
termination_by 8 * ts.length + 5

theorem leadingProduct_sound {ts rest : List Token} {f : Formula}
    (read : leadingProduct ts = some (f, rest)) :
    ∃ used, used ++ rest = ts ∧ Derives .product used f := by
  rw [leadingProduct_eq] at read
  obtain ⟨⟨g, middle⟩, first, others⟩ := Option.map_eq_some_iff.mp read
  have shorter := length_lt first
  obtain ⟨used, rfl, derived⟩ := leadingSigned_sound first
  obtain ⟨more, rfl, whole⟩ := productFrom_sound (.signed derived) others
  exact ⟨used ++ more, List.append_assoc .., whole⟩
termination_by 8 * ts.length + 5

theorem productFrom_sound {used ts rest : List Token} {left f : Formula}
    (derived : Derives .product used left) (read : productFrom left ts = (f, rest)) :
    ∃ more, more ++ rest = ts ∧ Derives .product (used ++ more) f := by
  obtain stop | ⟨t, us, join, g, middle, rfl, sign, next, step⟩ | ⟨g, middle, starts, next, step⟩ :=
    productFrom_cases left ts
  · cases stop.symm.trans read
    exact ⟨[], rfl, by rwa [List.append_nil]⟩
  · have shorter := length_lt next
    rw [step] at read
    obtain ⟨operand, rfl, right⟩ := leadingSigned_sound next
    obtain ⟨more, rfl, whole⟩ := productFrom_sound (derived.join_product sign right) read
    exact ⟨t :: operand ++ more, by rw [List.append_assoc, List.cons_append],
      by rwa [List.append_assoc] at whole⟩
  · have shorter := length_lt next
    rw [step] at read
    obtain ⟨operand, same, _, right⟩ := leadingPower_sound next
    obtain ⟨more, rfl, whole⟩ := productFrom_sound (derived.juxtaposed (right starts)) read
    exact ⟨operand ++ more, by rw [List.append_assoc, same],
      by rwa [List.append_assoc] at whole⟩
termination_by 8 * ts.length + 4

theorem leadingSigned_sound {ts rest : List Token} {f : Formula}
    (read : leadingSigned ts = some (f, rest)) :
    ∃ used, used ++ rest = ts ∧ Derives .signed used f := by
  obtain unsigned | ⟨us, rfl⟩ := leadingSigned_cases ts
  · rw [unsigned] at read
    obtain ⟨used, same, derived, _⟩ := leadingPower_sound read
    exact ⟨used, same, derived⟩
  · rw [leadingSigned_minus] at read
    obtain ⟨⟨g, middle⟩, operand, same⟩ := Option.map_eq_some_iff.mp read
    cases same
    obtain ⟨used, rfl, derived⟩ := leadingSigned_sound operand
    exact ⟨.minus :: used, rfl, .neg derived⟩
termination_by 8 * ts.length + 4

/-- A power is a factor if it does not begin with a number. -/
theorem leadingPower_sound {ts rest : List Token} {f : Formula}
    (read : leadingPower ts = some (f, rest)) :
    ∃ used, used ++ rest = ts ∧ Derives .signed used f ∧
      ((∀ t ∈ ts.head?, t.startsFactor) → Derives .factor used f) := by
  rw [leadingPower_eq] at read
  obtain ⟨⟨g, middle⟩, first, exponent⟩ := Option.map_eq_some_iff.mp read
  have shorter := length_lt first
  obtain ⟨used, rfl, derived, atom⟩ := leadingPrimary_sound first
  obtain stop | ⟨us, h, _, rfl, next, step⟩ := exponentFrom_cases g middle
  · cases stop.symm.trans exponent
    exact ⟨used, rfl, .primary derived, fun starts => .factor (atom starts)⟩
  · cases step.symm.trans exponent
    obtain ⟨more, rfl, right⟩ := leadingSigned_sound next
    exact ⟨used ++ .caret :: more, by rw [List.append_assoc, List.cons_append],
      .pow derived right, fun starts => .factorPow (atom starts) right⟩
termination_by 8 * ts.length + 3

theorem leadingPrimary_sound {ts rest : List Token} {f : Formula}
    (read : leadingPrimary ts = some (f, rest)) :
    ∃ used, used ++ rest = ts ∧ Derives .primary used f ∧
      ((∀ t ∈ ts.head?, t.startsFactor) → Derives .atom used f) := by
  obtain ⟨digits, places, rfl, rfl⟩ | ⟨letters, rfl, rfl⟩ | ⟨us, rfl, inside⟩ :=
    leadingPrimary_cases read
  · exact ⟨[_], rfl, .number digits places, fun starts => nomatch starts _ rfl⟩
  · exact ⟨[_], rfl, .atom (.name letters), fun _ => .name letters⟩
  · obtain ⟨used, rfl, derived⟩ := leadingSum_sound inside
    exact ⟨.opening :: used ++ [.closing], by rw [List.append_assoc, List.singleton_append]; rfl,
      .atom (.bracket derived), fun _ => .bracket derived⟩
termination_by 8 * ts.length + 2

end

theorem derives_of_ofTokens? (read : ofTokens? ts = some f) : Derives .sum ts f := by
  unfold ofTokens? at read
  split at read
  · next g shorter all =>
    cases read
    have read : leadingSum ts = some (f, []) := by rw [leadingSum, all]; rfl
    obtain ⟨used, rfl, derived⟩ := leadingSum_sound read
    rwa [List.append_nil]
  · cases read

end Soundness

/-- The formula that is read from a text is the one that is written in it. -/
theorem ofChars?_eq_some_iff {cs : List Char} {f : Formula} :
    ofChars? cs = some f ↔ Sentence cs f := by
  constructor
  · intro read
    obtain ⟨ts, tokens, tree⟩ := Option.bind_eq_some_iff.mp read
    exact ⟨ts, spells_of_ofChars? tokens, derives_of_ofTokens? tree⟩
  · rintro ⟨ts, spelled, derived⟩
    exact Option.bind_eq_some_iff.mpr
      ⟨ts, spelled.ofChars?_eq derived.separated, derived.found.ofTokens?_eq⟩

example : ofChars? "-2x^2y / 3".toList =
    some (.div (.mul (.mul (.neg (.number 2 0)) (.pow (.name "x") (.number 2 0))) (.name "y"))
      (.number 3 0)) := by
  decide +kernel

theorem Sentence.unique {cs : List Char} {f g : Formula} (one : Sentence cs f)
    (other : Sentence cs g) : f = g :=
  Option.some.inj ((ofChars?_eq_some_iff.mpr one).symm.trans (ofChars?_eq_some_iff.mpr other))

end ExactAlgebra.Formula
