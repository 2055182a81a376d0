/-!
The tokens of a formula. Blanks may stand around tokens and are dropped; a name is a longest run
of ASCII letters, a number a run of ASCII digits that a point and more digits may follow. Text
with any other character has no tokens.
-/
namespace ExactAlgebra

inductive Token
  | number (digits places : Nat)
  | name (letters : String)
  | plus
  | minus
  | star
  | slash
  | caret
  | opening
  | closing
deriving DecidableEq

namespace Token

def isBlank (c : Char) : Bool := c == ' ' || c == '\t' || c == '\r' || c == '\n'

def ofSign? : Char → Option Token
  | '+' => some plus
  | '-' => some minus
  | '*' => some star
  | '/' => some slash
  | '^' => some caret
  | '(' => some opening
  | ')' => some closing
  | _ => none

def fractionDigits : List Char → List Char
  | '.' :: cs => cs.takeWhile Char.isDigit
  | _ => []

/-- What is left after a point and its digits; a point without digits stays. -/
def afterFraction : List Char → List Char
  | '.' :: cs =>
    if (cs.takeWhile Char.isDigit).isEmpty then '.' :: cs else cs.dropWhile Char.isDigit
  | cs => cs

def numeral (whole fraction : List Char) : Token :=
  number (Nat.ofDigitChars 10 (whole ++ fraction) 0) fraction.length

theorem length_dropWhile_le (p : Char → Bool) (cs : List Char) :
    (cs.dropWhile p).length ≤ cs.length :=
  (List.dropWhile_suffix p).length_le

theorem length_afterFraction_le (cs : List Char) : (afterFraction cs).length ≤ cs.length := by
  unfold afterFraction
  split
  · split
    · exact Nat.le_refl _
    · exact Nat.le_succ_of_le (length_dropWhile_le _ _)
  · exact Nat.le_refl _

def ofChars? : List Char → Option (List Token)
  | [] => some []
  | c :: cs =>
    if isBlank c then ofChars? cs
    else if c.isAlpha then
      (ofChars? (cs.dropWhile Char.isAlpha)).map
        (name (String.ofList (c :: cs.takeWhile Char.isAlpha)) :: ·)
    else if c.isDigit then
      let rest := cs.dropWhile Char.isDigit
      (ofChars? (afterFraction rest)).map
        (numeral (c :: cs.takeWhile Char.isDigit) (fractionDigits rest) :: ·)
    else
      match ofSign? c with
      | some t => (ofChars? cs).map (t :: ·)
      | none => none
termination_by cs => cs.length
decreasing_by
  all_goals simp only [List.length_cons]
  · omega
  · have := length_dropWhile_le Char.isAlpha cs; omega
  · have := length_dropWhile_le Char.isDigit cs
    have := length_afterFraction_le (cs.dropWhile Char.isDigit)
    omega
  · omega

end Token

end ExactAlgebra
