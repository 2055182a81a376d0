import ExactAlgebra.Formula
import ExactAlgebra.Formula.Token

/-!
Reading formulas. A sum is made of products, a product of signed powers; a name or a bracket may
follow a factor without a sign. Sums, and products with quotients and juxtaposition, group to the
left; a caret groups to the right and binds tighter than a minus in front of its base. A reader
takes the longest formula of its kind at the head of the tokens and leaves a shorter list. Where a
sign or a caret has nothing to its right that can be read, it is left over, and so is all after it.
-/
namespace ExactAlgebra

namespace Token

def sumSign? : Token → Option (Formula → Formula → Formula)
  | plus => some .add
  | minus => some .sub
  | _ => none

def productSign? : Token → Option (Formula → Formula → Formula)
  | star => some .mul
  | slash => some .div
  | _ => none

/-- What may follow a factor without a sign. -/
def startsFactor : Token → Bool
  | name _ | opening => true
  | _ => false

end Token

namespace Formula

abbrev Shorter (ts : List Token) := { rest : List Token // rest.length < ts.length }

abbrev NotLonger (ts : List Token) := { rest : List Token // rest.length ≤ ts.length }

mutual

/-- Products joined by plus and minus. -/
def readSum (ts : List Token) : Option (Formula × Shorter ts) :=
  match readProduct ts with
  | none => none
  | some (f, ⟨rest, h⟩) =>
    match readSumTail f rest with
    | (g, ⟨rest', h'⟩) => some (g, ⟨rest', Nat.lt_of_le_of_lt h' h⟩)
termination_by 8 * ts.length + 6

def readSumTail (left : Formula) (ts : List Token) : Formula × NotLonger ts :=
  match ts with
  | [] => (left, ⟨[], Nat.le_refl _⟩)
  | t :: rest =>
    match t.sumSign? with
    | none => (left, ⟨t :: rest, Nat.le_refl _⟩)
    | some join =>
      match readProduct rest with
      | none => (left, ⟨t :: rest, Nat.le_refl _⟩)
      | some (f, ⟨rest', h⟩) =>
        match readSumTail (join left f) rest' with
        | (g, ⟨rest'', h'⟩) => (g, ⟨rest'', by simp only [List.length_cons]; omega⟩)
termination_by 8 * ts.length + 5

/-- Signed powers joined by a star, a slash or nothing. -/
def readProduct (ts : List Token) : Option (Formula × Shorter ts) :=
  match readSigned ts with
  | none => none
  | some (f, ⟨rest, h⟩) =>
    match readProductTail f rest with
    | (g, ⟨rest', h'⟩) => some (g, ⟨rest', Nat.lt_of_le_of_lt h' h⟩)
termination_by 8 * ts.length + 5

def readProductTail (left : Formula) (ts : List Token) : Formula × NotLonger ts :=
  match ts with
  | [] => (left, ⟨[], Nat.le_refl _⟩)
  | t :: rest =>
    match t.productSign? with
    | some join =>
      match readSigned rest with
      | none => (left, ⟨t :: rest, Nat.le_refl _⟩)
      | some (f, ⟨rest', h⟩) =>
        match readProductTail (join left f) rest' with
        | (g, ⟨rest'', h'⟩) => (g, ⟨rest'', by simp only [List.length_cons]; omega⟩)
    | none =>
      if t.startsFactor then
        match readPower (t :: rest) with
        | none => (left, ⟨t :: rest, Nat.le_refl _⟩)
        | some (f, ⟨rest', h⟩) =>
          match readProductTail (.mul left f) rest' with
          | (g, ⟨rest'', h'⟩) => (g, ⟨rest'', Nat.le_trans h' (Nat.le_of_lt h)⟩)
      else (left, ⟨t :: rest, Nat.le_refl _⟩)
termination_by 8 * ts.length + 4
decreasing_by
  all_goals
    simp only [List.length_cons] at *
    omega

/-- A power behind any number of minus signs. -/
def readSigned (ts : List Token) : Option (Formula × Shorter ts) :=
  match ts with
  | .minus :: rest =>
    match readSigned rest with
    | none => none
    | some (f, ⟨rest', h⟩) => some (.neg f, ⟨rest', Nat.lt_succ_of_lt h⟩)
  | ts => readPower ts
termination_by 8 * ts.length + 4

/-- A number, a name or a sum in brackets, with an exponent if a caret follows. -/
def readPower (ts : List Token) : Option (Formula × Shorter ts) :=
  match readPrimary ts with
  | none => none
  | some (f, ⟨.caret :: rest, h⟩) =>
    match readSigned rest with
    | none => some (f, ⟨.caret :: rest, h⟩)
    | some (g, ⟨rest', h'⟩) =>
      some (.pow f g, ⟨rest', by simp only [List.length_cons] at h; omega⟩)
  | some (f, rest) => some (f, rest)
termination_by 8 * ts.length + 3
decreasing_by
  · omega
  · simp only [List.length_cons] at h; omega

def readPrimary (ts : List Token) : Option (Formula × Shorter ts) :=
  match ts with
  | .number digits places :: rest => some (.number digits places, ⟨rest, Nat.lt_succ_self _⟩)
  | .name letters :: rest => some (.name letters, ⟨rest, Nat.lt_succ_self _⟩)
  | .opening :: rest =>
    match readSum rest with
    | some (f, ⟨.closing :: rest', h⟩) =>
      some (f, ⟨rest', by simp only [List.length_cons] at h ⊢; omega⟩)
    | _ => none
  | _ => none
termination_by 8 * ts.length + 2

end

def ofTokens? (ts : List Token) : Option Formula :=
  match readSum ts with
  | some (f, ⟨[], _⟩) => some f
  | _ => none

def ofChars? (cs : List Char) : Option Formula := (Token.ofChars? cs).bind ofTokens?

end Formula

end ExactAlgebra
