import ExactAlgebra.Formula.Reading
import ExactAlgebra.Proofs.Spelling

/-!
The grammar of formulas, as derivations that say which tokens make up which tree:

  sum     = product { (plus | minus) product }
  product = signed { (star | slash) signed | factor }
  signed  = minus signed | primary [ caret signed ]
  factor  = atom [ caret signed ]
  primary = number | atom
  atom    = name | opening sum closing

Sums and products grow at the right end, so their trees lean to the left. Numbers never meet in a
derivation, as only a name or a bracket may follow a factor without a sign.
-/
namespace ExactAlgebra

inductive Category
  | sum
  | product
  | signed
  | factor
  | primary
  | atom

/-- The tokens that a category may begin with. -/
def Category.Begins : Category → Token → Prop
  | factor, t | atom, t => t.startsFactor
  | primary, t => t.startsFactor ∨ t.isNumber
  | sum, t | product, t | signed, t => (t.startsFactor ∨ t.isNumber) ∨ t = .minus

namespace Formula

open Token

/-- The tokens of a category and the tree that they make up. -/
inductive Derives : Category → List Token → Formula → Prop
  | product {ts f} (only : Derives .product ts f) : Derives .sum ts f
  | add {ts us f g} (left : Derives .sum ts f) (right : Derives .product us g) :
    Derives .sum (ts ++ .plus :: us) (.add f g)
  | sub {ts us f g} (left : Derives .sum ts f) (right : Derives .product us g) :
    Derives .sum (ts ++ .minus :: us) (.sub f g)
  | signed {ts f} (only : Derives .signed ts f) : Derives .product ts f
  | mul {ts us f g} (left : Derives .product ts f) (right : Derives .signed us g) :
    Derives .product (ts ++ .star :: us) (.mul f g)
  | div {ts us f g} (left : Derives .product ts f) (right : Derives .signed us g) :
    Derives .product (ts ++ .slash :: us) (.div f g)
  | juxtaposed {ts us f g} (left : Derives .product ts f) (right : Derives .factor us g) :
    Derives .product (ts ++ us) (.mul f g)
  | neg {ts f} (operand : Derives .signed ts f) : Derives .signed (.minus :: ts) (.neg f)
  | primary {ts f} (only : Derives .primary ts f) : Derives .signed ts f
  | pow {ts us f g} (base : Derives .primary ts f) (exponent : Derives .signed us g) :
    Derives .signed (ts ++ .caret :: us) (.pow f g)
  | factor {ts f} (only : Derives .atom ts f) : Derives .factor ts f
  | factorPow {ts us f g} (base : Derives .atom ts f) (exponent : Derives .signed us g) :
    Derives .factor (ts ++ .caret :: us) (.pow f g)
  | number (digits places : Nat) : Derives .primary [.number digits places] (.number digits places)
  | atom {ts f} (only : Derives .atom ts f) : Derives .primary ts f
  | name (letters : String) : Derives .atom [.name letters] (.name letters)
  | bracket {ts f} (inside : Derives .sum ts f) :
    Derives .atom (.opening :: ts ++ [.closing]) f

/-- A formula that is written in these characters. -/
def Sentence (cs : List Char) (f : Formula) : Prop :=
  ∃ ts, Spells cs ts ∧ Derives .sum ts f

section Shape

variable {c : Category} {ts us : List Token} {f g : Formula} {t : Token}

theorem Derives.first (derived : Derives c ts f) : ∃ t us, ts = t :: us ∧ c.Begins t := by
  induction derived with
  | product _ ih | signed _ ih | factor _ ih => exact ih
  | primary _ ih | atom _ ih =>
    obtain ⟨t, us, rfl, begins⟩ := ih
    exact ⟨t, us, rfl, .inl begins⟩
  | add _ _ ih _ | sub _ _ ih _ | mul _ _ ih _ | div _ _ ih _ | juxtaposed _ _ ih _
  | factorPow _ _ ih _ =>
    obtain ⟨t, us, rfl, begins⟩ := ih
    exact ⟨t, _, rfl, begins⟩
  | pow _ _ ih _ =>
    obtain ⟨t, us, rfl, begins⟩ := ih
    exact ⟨t, _, rfl, .inl begins⟩
  | neg => exact ⟨_, _, rfl, .inr rfl⟩
  | number => exact ⟨_, _, rfl, .inr rfl⟩
  | name | bracket => exact ⟨_, _, rfl, rfl⟩

theorem separated_join (left : Separated ts) (right : Separated us)
    (sign : ¬ t.isNumber) : Separated (ts ++ t :: us) :=
  left.append (right.cons sign) <| by rintro u ⟨⟩; exact sign

/-- Numbers never meet in a derivation: what follows without a sign is a name or a bracket. -/
theorem Derives.separated (derived : Derives c ts f) : Separated ts := by
  induction derived with
  | product _ ih | signed _ ih | factor _ ih | primary _ ih | atom _ ih => exact ih
  | number | name => exact List.isChain_singleton _
  | add _ _ left right | sub _ _ left right | mul _ _ left right | div _ _ left right
  | pow _ _ left right | factorPow _ _ left right =>
    exact separated_join left right Bool.false_ne_true
  | neg _ ih => exact ih.cons Bool.false_ne_true
  | bracket _ ih =>
    exact separated_join (ih.cons Bool.false_ne_true) List.isChain_nil Bool.false_ne_true
  | juxtaposed _ second left right =>
    obtain ⟨t, us, rfl, begins⟩ := second.first
    refine left.append right ?_
    rintro u ⟨⟩ number
    cases t <;> first | cases number; done | cases begins

theorem Derives.join_sum {join : Formula → Formula → Formula} (sign : t.sumSign? = some join)
    (left : Derives .sum ts f) (right : Derives .product us g) :
    Derives .sum (ts ++ t :: us) (join f g) := by
  cases t <;> cases sign
  · exact .add left right
  · exact .sub left right

theorem Derives.join_product {join : Formula → Formula → Formula}
    (sign : t.productSign? = some join) (left : Derives .product ts f)
    (right : Derives .signed us g) :
    Derives .product (ts ++ t :: us) (join f g) := by
  cases t <;> cases sign
  · exact .mul left right
  · exact .div left right

end Shape

end Formula

end ExactAlgebra
