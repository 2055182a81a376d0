import ExactAlgebra.Formula.Reading

/-!
The readers of formulas without the bounds that make them terminate, an equation for each way one of
them goes on, and for the two loops and the exponent the ways in which a round can end.
-/
namespace ExactAlgebra.Formula

open Token

/-- A result without its bound on the length. -/
abbrev bare {α : Type} {p : α → Prop} (r : Formula × { rest : α // p rest }) : Formula × α :=
  (r.1, r.2.val)

def leadingSum (ts : List Token) : Option (Formula × List Token) := (readSum ts).map bare

def sumFrom (left : Formula) (ts : List Token) : Formula × List Token := bare (readSumTail left ts)

def leadingProduct (ts : List Token) : Option (Formula × List Token) := (readProduct ts).map bare

def productFrom (left : Formula) (ts : List Token) : Formula × List Token :=
  bare (readProductTail left ts)

def leadingSigned (ts : List Token) : Option (Formula × List Token) := (readSigned ts).map bare

def leadingPower (ts : List Token) : Option (Formula × List Token) := (readPower ts).map bare

def leadingPrimary (ts : List Token) : Option (Formula × List Token) := (readPrimary ts).map bare

/-- The base with the exponent behind a caret; a caret without one is left over. -/
def exponentFrom (base : Formula) : List Token → Formula × List Token
  | .caret :: ts =>
    match leadingSigned ts with
    | some (exponent, rest) => (.pow base exponent, rest)
    | none => (base, .caret :: ts)
  | ts => (base, ts)

def closed? : Formula × List Token → Option (Formula × List Token)
  | (f, .closing :: ts) => some (f, ts)
  | _ => none

section Equations

variable {ts : List Token} {f : Formula} {t : Token}

theorem leadingSum_eq : leadingSum ts = (leadingProduct ts).map fun p => sumFrom p.1 p.2 := by
  rw [leadingSum, readSum, leadingProduct]
  cases readProduct ts <;> rfl

theorem sumFrom_nil : sumFrom f [] = (f, []) := by rw [sumFrom, readSumTail]

theorem sumFrom_sign {join : Formula → Formula → Formula} (sign : t.sumSign? = some join) :
    sumFrom f (t :: ts) =
      match leadingProduct ts with
      | some (g, rest) => sumFrom (join f g) rest
      | none => (f, t :: ts) := by
  rw [sumFrom, readSumTail, sign, leadingProduct]
  cases readProduct ts <;> rfl

theorem sumFrom_stop (other : t.sumSign? = none) : sumFrom f (t :: ts) = (f, t :: ts) := by
  rw [sumFrom, readSumTail, other]

theorem leadingProduct_eq :
    leadingProduct ts = (leadingSigned ts).map fun p => productFrom p.1 p.2 := by
  rw [leadingProduct, readProduct, leadingSigned]
  cases readSigned ts <;> rfl

theorem productFrom_nil : productFrom f [] = (f, []) := by rw [productFrom, readProductTail]

theorem productFrom_sign {join : Formula → Formula → Formula} (sign : t.productSign? = some join) :
    productFrom f (t :: ts) =
      match leadingSigned ts with
      | some (g, rest) => productFrom (join f g) rest
      | none => (f, t :: ts) := by
  rw [productFrom, readProductTail, sign, leadingSigned]
  cases readSigned ts <;> rfl

theorem productFrom_factor (starts : t.startsFactor) :
    productFrom f (t :: ts) =
      match leadingPower (t :: ts) with
      | some (g, rest) => productFrom (.mul f g) rest
      | none => (f, t :: ts) := by
  have other : t.productSign? = none := by cases t <;> first | rfl | cases starts
  rw [productFrom, readProductTail, other, leadingPower]
  simp only [starts, if_true]
  cases readPower (t :: ts) <;> rfl

theorem productFrom_stop (other : t.productSign? = none) (no_factor : ¬ t.startsFactor) :
    productFrom f (t :: ts) = (f, t :: ts) := by
  rw [productFrom, readProductTail, other]
  simp only [no_factor]
  rfl

theorem leadingSigned_minus :
    leadingSigned (.minus :: ts) = (leadingSigned ts).map fun p => (.neg p.1, p.2) := by
  rw [leadingSigned, readSigned, leadingSigned]
  cases readSigned ts <;> rfl

theorem leadingSigned_power (unsigned : ∀ t ∈ ts.head?, t ≠ .minus) :
    leadingSigned ts = leadingPower ts := by
  rw [leadingSigned, readSigned, leadingPower]
  rintro rest rfl
  exact unsigned _ rfl rfl

theorem leadingPower_eq :
    leadingPower ts = (leadingPrimary ts).map fun p => exponentFrom p.1 p.2 := by
  rw [leadingPower, readPower, leadingPrimary]
  rcases readPrimary ts with _ | ⟨base, ⟨_ | ⟨t, rest⟩, shorter⟩⟩
  · rfl
  · rfl
  · cases t
    case caret =>
      simp only [Option.map_some, bare, exponentFrom, leadingSigned]
      cases readSigned rest <;> rfl
    all_goals rfl

theorem leadingPrimary_number {d p : Nat} :
    leadingPrimary (.number d p :: ts) = some (.number d p, ts) := by
  rw [leadingPrimary, readPrimary]; rfl

theorem leadingPrimary_name {letters : String} :
    leadingPrimary (.name letters :: ts) = some (.name letters, ts) := by
  rw [leadingPrimary, readPrimary]; rfl

theorem leadingPrimary_bracket :
    leadingPrimary (.opening :: ts) = (leadingSum ts).bind closed? := by
  rw [leadingPrimary, readPrimary, leadingSum]
  rcases readSum ts with _ | ⟨f, ⟨_ | ⟨t, rest⟩, shorter⟩⟩
  · rfl
  · rfl
  · cases t <;> rfl

end Equations

section Rounds

variable {ts : List Token} {f : Formula}

theorem sumFrom_cases (f : Formula) (ts : List Token) :
    sumFrom f ts = (f, ts) ∨
      ∃ t us join g rest, ts = t :: us ∧ t.sumSign? = some join ∧
        leadingProduct us = some (g, rest) ∧ sumFrom f ts = sumFrom (join f g) rest := by
  match ts with
  | [] => exact .inl sumFrom_nil
  | t :: us =>
    cases sign : t.sumSign? with
    | none => exact .inl (sumFrom_stop sign)
    | some join =>
      cases next : leadingProduct us with
      | none => exact .inl (by rw [sumFrom_sign sign, next])
      | some p =>
        exact .inr ⟨t, us, join, p.1, p.2, rfl, sign, next, by rw [sumFrom_sign sign, next]⟩

theorem productFrom_cases (f : Formula) (ts : List Token) :
    productFrom f ts = (f, ts) ∨
      (∃ t us join g rest, ts = t :: us ∧ t.productSign? = some join ∧
        leadingSigned us = some (g, rest) ∧ productFrom f ts = productFrom (join f g) rest) ∨
      ∃ g rest, (∀ t ∈ ts.head?, t.startsFactor) ∧ leadingPower ts = some (g, rest) ∧
        productFrom f ts = productFrom (.mul f g) rest := by
  match ts with
  | [] => exact .inl productFrom_nil
  | t :: us =>
    cases sign : t.productSign? with
    | some join =>
      cases next : leadingSigned us with
      | none => exact .inl (by rw [productFrom_sign sign, next])
      | some p =>
        exact .inr (.inl ⟨t, us, join, p.1, p.2, rfl, sign, next,
          by rw [productFrom_sign sign, next]⟩)
    | none =>
      by_cases starts : t.startsFactor
      · cases next : leadingPower (t :: us) with
        | none => exact .inl (by rw [productFrom_factor starts, next])
        | some p =>
          refine .inr (.inr ⟨p.1, p.2, ?_, rfl, by rw [productFrom_factor starts, next]⟩)
          rintro u ⟨⟩
          exact starts
      · exact .inl (productFrom_stop sign starts)

theorem leadingSigned_cases (ts : List Token) :
    leadingSigned ts = leadingPower ts ∨ ∃ us, ts = .minus :: us := by
  match ts with
  | [] => exact .inl (leadingSigned_power nofun)
  | t :: us =>
    by_cases sign : t = .minus
    · exact .inr ⟨us, by rw [sign]⟩
    · refine .inl (leadingSigned_power ?_)
      rintro u ⟨⟩
      exact sign

theorem exponentFrom_cases (f : Formula) (ts : List Token) :
    exponentFrom f ts = (f, ts) ∨
      ∃ us g rest, ts = .caret :: us ∧ leadingSigned us = some (g, rest) ∧
        exponentFrom f ts = (.pow f g, rest) := by
  unfold exponentFrom
  split
  · next us =>
    split
    · next g rest read => exact .inr ⟨us, g, rest, rfl, read, rfl⟩
    · exact .inl rfl
  · exact .inl rfl

theorem leadingPrimary_cases {rest : List Token} (read : leadingPrimary ts = some (f, rest)) :
    (∃ digits places, ts = .number digits places :: rest ∧ f = .number digits places) ∨
      (∃ letters, ts = .name letters :: rest ∧ f = .name letters) ∨
      ∃ us, ts = .opening :: us ∧ leadingSum us = some (f, .closing :: rest) := by
  match ts with
  | .number digits places :: us =>
    rw [leadingPrimary_number] at read
    cases read
    exact .inl ⟨digits, places, rfl, rfl⟩
  | .name letters :: us =>
    rw [leadingPrimary_name] at read
    cases read
    exact .inr (.inl ⟨letters, rfl, rfl⟩)
  | .opening :: us =>
    rw [leadingPrimary_bracket] at read
    obtain ⟨⟨g, middle⟩, inside, close⟩ := Option.bind_eq_some_iff.mp read
    unfold closed? at close
    split at close
    · next same =>
      cases close
      cases same
      exact .inr (.inr ⟨us, rfl, inside⟩)
    · cases close
  | [] | .plus :: _ | .minus :: _ | .star :: _ | .slash :: _ | .caret :: _ | .closing :: _ =>
    simp [leadingPrimary, readPrimary] at read

theorem length_lt {x : Option (Formula × Shorter ts)} {rest : List Token}
    (read : x.map bare = some (f, rest)) : rest.length < ts.length := by
  obtain ⟨⟨g, rest, shorter⟩, _, same⟩ := Option.map_eq_some_iff.mp read
  cases same
  exact shorter

end Rounds

end ExactAlgebra.Formula
