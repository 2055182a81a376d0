import ExactAlgebra.Formula.Token
import Mathlib.Data.List.Chain
import Mathlib.Data.List.TakeWhile

/-!
Which characters spell which tokens, as a relation: blanks and tokens in any order, where only a
name must be as long as it can be. The tokens that are read from a text are spelled by it. The other
way round the numbers must stand apart, since a run of digits also spells several shorter numbers.
-/
namespace ExactAlgebra.Token

/-- One token and its characters, without the blanks around it. -/
inductive Lexeme : List Char → Token → Prop
  | sign {c : Char} {t : Token} (table : ofSign? c = some t) : Lexeme [c] t
  | name {letters : List Char} (some_letter : letters ≠ []) (ascii : ∀ c ∈ letters, c.isAlpha) :
    Lexeme letters (.name (String.ofList letters))
  | whole {digits : List Char} (some_digit : digits ≠ []) (ascii : ∀ c ∈ digits, c.isDigit) :
    Lexeme digits (numeral digits [])
  | decimal {digits places : List Char} (some_digit : digits ≠ []) (some_place : places ≠ [])
    (ascii : ∀ c ∈ digits, c.isDigit) (ascii_places : ∀ c ∈ places, c.isDigit) :
    Lexeme (digits ++ '.' :: places) (numeral digits places)

def isName : Token → Bool
  | name _ => true
  | _ => false

def isNumber : Token → Bool
  | number _ _ => true
  | _ => false

inductive Spells : List Char → List Token → Prop
  | nothing : Spells [] []
  | blank {c : Char} {cs : List Char} {ts : List Token} (white : isBlank c)
    (rest : Spells cs ts) : Spells (c :: cs) ts
  | token {lexeme cs : List Char} {t : Token} {ts : List Token} (this : Lexeme lexeme t)
    (longest : t.isName → ∀ c ∈ cs.head?, ¬ c.isAlpha) (rest : Spells cs ts) :
    Spells (lexeme ++ cs) (t :: ts)

/-- No number stands right behind a number. -/
def Separated (ts : List Token) : Prop := ts.IsChain fun t u => ¬ (t.isNumber ∧ u.isNumber)

theorem Separated.cons {t : Token} {ts : List Token} (other : ¬ t.isNumber)
    (separated : Separated ts) : Separated (t :: ts) :=
  List.isChain_cons.mpr ⟨fun _ _ both => other both.1, separated⟩

theorem Separated.append {ts us : List Token} (first : Separated ts) (second : Separated us)
    (front : ∀ u ∈ us.head?, ¬ u.isNumber) : Separated (ts ++ us) :=
  List.isChain_append.mpr ⟨first, second, fun _ _ u follows both => front u follows both.2⟩

theorem Separated.not_number_follows {d p : Nat} {ts : List Token}
    (separated : Separated (.number d p :: ts)) : ∀ t ∈ ts.head?, ¬ t.isNumber := by
  intro t first both
  cases ts with
  | nil => cases first
  | cons u ts =>
    obtain rfl := Option.some.inj first
    exact (List.isChain_cons_cons.mp separated).1 ⟨rfl, both⟩

section Characters

variable {c : Char}

theorem of_isBlank (white : isBlank c) : c.isAlpha = false ∧ c.isDigit = false ∧ c ≠ '.' := by
  simp only [isBlank, Bool.or_eq_true, beq_iff_eq] at white
  obtain ((rfl | rfl) | rfl) | rfl := white <;> decide

theorem of_ofSign? {t : Token} (table : ofSign? c = some t) :
    isBlank c = false ∧ c.isAlpha = false ∧ c.isDigit = false ∧ c ≠ '.' := by
  unfold ofSign? at table
  split at table <;> first | decide | cases table

theorem isName_of_ofSign? {t : Token} (table : ofSign? c = some t) : t.isName = false := by
  unfold ofSign? at table
  split at table <;> cases table <;> rfl

theorem toNat_of_isAlpha (letter : c.isAlpha) :
    65 ≤ c.toNat ∧ c.toNat ≤ 90 ∨ 97 ≤ c.toNat ∧ c.toNat ≤ 122 := by
  obtain upper | lower := Bool.or_eq_true_iff.mp letter
  · exact .inl (of_decide_eq_true upper)
  · obtain ⟨above, below⟩ := Bool.and_eq_true_iff.mp lower
    exact .inr ⟨of_decide_eq_true above, of_decide_eq_true below⟩

theorem toNat_of_isDigit (digit : c.isDigit) : 48 ≤ c.toNat ∧ c.toNat ≤ 57 :=
  Char.isDigit_iff_toNat.mp digit

theorem isDigit_of_isAlpha (letter : c.isAlpha) : c.isDigit = false := by
  cases digit : c.isDigit with
  | false => rfl
  | true =>
    have low := toNat_of_isDigit digit
    have high := toNat_of_isAlpha letter
    omega

theorem of_isAlpha (letter : c.isAlpha) : isBlank c = false ∧ c.isDigit = false ∧ c ≠ '.' := by
  refine ⟨?_, isDigit_of_isAlpha letter, ?_⟩
  · cases white : isBlank c with
    | false => rfl
    | true => simp [(of_isBlank white).1] at letter
  · rintro rfl
    cases letter

theorem of_isDigit (digit : c.isDigit) : isBlank c = false ∧ c.isAlpha = false := by
  constructor
  · cases white : isBlank c with
    | false => rfl
    | true => simp [(of_isBlank white).2.1] at digit
  · cases letter : c.isAlpha with
    | false => rfl
    | true => simp [isDigit_of_isAlpha letter] at digit

end Characters

section Reading

variable {cs : List Char} {ts : List Token}

theorem Spells.sign {c : Char} {t : Token} (table : ofSign? c = some t) (rest : Spells cs ts) :
    Spells (c :: cs) (t :: ts) := by
  refine .token (.sign table) ?_ rest
  rw [isName_of_ofSign? table]
  nofun

theorem not_of_mem_head?_dropWhile {p : Char → Bool} :
    ∀ c ∈ (cs.dropWhile p).head?, ¬ p c := by
  intro c first
  have stopped := List.head?_dropWhile_not p cs
  rw [first] at stopped
  simp only [stopped, Bool.false_eq_true, not_false_eq_true]

/-- A point counts with the number in front of it only if a digit follows. -/
theorem afterFraction_cases (rest : List Char) :
    fractionDigits rest = [] ∧ afterFraction rest = rest ∨
      fractionDigits rest ≠ [] ∧ (∀ c ∈ fractionDigits rest, c.isDigit) ∧
        rest = '.' :: (fractionDigits rest ++ afterFraction rest) := by
  unfold fractionDigits afterFraction
  split
  · next cs =>
    split
    · next empty => exact .inl ⟨List.isEmpty_iff.mp empty, rfl⟩
    · next places =>
      refine .inr ⟨fun none => places (List.isEmpty_iff.mpr none),
        fun c => List.mem_takeWhile_imp, ?_⟩
      rw [List.takeWhile_append_dropWhile]
  · exact .inl ⟨rfl, rfl⟩

/-- What is read is spelled by the text. -/
theorem spells_of_ofChars? (read : ofChars? cs = some ts) : Spells cs ts := by
  fun_induction ofChars? cs generalizing ts with
  | case1 =>
    cases read
    exact .nothing
  | case2 c cs white ih => exact .blank white (ih read)
  | case3 c cs _ letter ih =>
    obtain ⟨others, tail, rfl⟩ := Option.map_eq_some_iff.mp read
    have letters : ∀ d ∈ c :: cs.takeWhile Char.isAlpha, d.isAlpha := by
      rw [List.forall_mem_cons]
      exact ⟨letter, fun d => List.mem_takeWhile_imp⟩
    have spelled := Spells.token (.name (List.cons_ne_nil _ _) letters)
      (fun _ => not_of_mem_head?_dropWhile) (ih tail)
    rwa [List.cons_append, List.takeWhile_append_dropWhile] at spelled
  | case4 c cs _ _ digit after =>
    rename_i ih
    obtain ⟨others, tail, rfl⟩ := Option.map_eq_some_iff.mp read
    have digits : ∀ d ∈ c :: cs.takeWhile Char.isDigit, d.isDigit := by
      rw [List.forall_mem_cons]
      exact ⟨digit, fun d => List.mem_takeWhile_imp⟩
    have number : Spells (c :: cs.takeWhile Char.isDigit ++ after)
        (numeral (c :: cs.takeWhile Char.isDigit) (fractionDigits after) :: others) := by
      -- a point belongs to the number only when digits follow it
      obtain ⟨none, stays⟩ | ⟨some, places, pointed⟩ := afterFraction_cases after
      · rw [none]
        rw [stays] at ih tail
        exact .token (.whole (List.cons_ne_nil _ _) digits) nofun (ih tail)
      · have spelled := Spells.token (.decimal (List.cons_ne_nil _ _) some digits places)
          nofun (ih tail)
        rwa [List.append_assoc, List.cons_append (a := '.'), ← pointed] at spelled
    rwa [List.cons_append, List.takeWhile_append_dropWhile] at number
  | case5 c cs _ _ _ t table ih =>
    obtain ⟨others, tail, rfl⟩ := Option.map_eq_some_iff.mp read
    exact .sign table (ih tail)
  | case6 => cases read

/-- Without a number in front, the text does not go on with a digit or a point. -/
theorem Spells.not_in_number (spelled : Spells cs ts) (front : ∀ t ∈ ts.head?, ¬ t.isNumber) :
    ∀ c ∈ cs.head?, c.isDigit = false ∧ c ≠ '.' := by
  intro c first
  cases spelled with
  | nothing => cases first
  | blank white _ =>
    obtain rfl := Option.some.inj first
    exact (of_isBlank white).2
  | token this _ _ =>
    have front := front _ rfl
    cases this with
    | sign table =>
      obtain rfl := Option.some.inj first
      exact (of_ofSign? table).2.2
    | name some_letter ascii =>
      obtain ⟨d, letters, rfl⟩ := List.exists_cons_of_ne_nil some_letter
      obtain rfl := Option.some.inj first
      exact (of_isAlpha (ascii _ List.mem_cons_self)).2
    | whole => exact absurd rfl front
    | decimal => exact absurd rfl front

theorem no_fraction (no_point : ∀ c ∈ cs.head?, c ≠ '.') :
    fractionDigits cs = [] ∧ afterFraction cs = cs := by
  unfold fractionDigits afterFraction
  split
  · exact absurd rfl (no_point '.' rfl)
  · exact ⟨rfl, rfl⟩

theorem span_append {p : Char → Bool} {front : List Char} (all : ∀ c ∈ front, p c)
    (stop : ∀ c ∈ cs.head?, ¬ p c) :
    (front ++ cs).takeWhile p = front ∧ (front ++ cs).dropWhile p = cs := by
  rw [List.takeWhile_append_of_pos all, List.dropWhile_append_of_pos all]
  match cs with
  | [] => exact ⟨List.append_nil _, rfl⟩
  | c :: cs =>
    have stop := stop c rfl
    exact ⟨by rw [List.takeWhile_cons_of_neg stop, List.append_nil],
      List.dropWhile_cons_of_neg stop⟩

theorem ofChars?_name {letters : List Char} (some_letter : letters ≠ [])
    (ascii : ∀ c ∈ letters, c.isAlpha) (longest : ∀ c ∈ cs.head?, ¬ c.isAlpha) :
    ofChars? (letters ++ cs) =
      (ofChars? cs).map (.name (String.ofList letters) :: ·) := by
  obtain ⟨c, letters, rfl⟩ := List.exists_cons_of_ne_nil some_letter
  rw [List.forall_mem_cons] at ascii
  obtain ⟨taken, left⟩ := span_append ascii.2 longest
  rw [List.cons_append, ofChars?, if_neg (by simp [of_isAlpha ascii.1]), if_pos ascii.1, taken,
    left]

theorem ofChars?_number {digits rest : List Char} (some_digit : digits ≠ [])
    (ascii : ∀ c ∈ digits, c.isDigit) (longest : ∀ c ∈ rest.head?, ¬ c.isDigit) :
    ofChars? (digits ++ rest) =
      (ofChars? (afterFraction rest)).map (numeral digits (fractionDigits rest) :: ·) := by
  obtain ⟨c, digits, rfl⟩ := List.exists_cons_of_ne_nil some_digit
  rw [List.forall_mem_cons] at ascii
  obtain ⟨taken, left⟩ := span_append ascii.2 longest
  rw [List.cons_append, ofChars?, if_neg (by simp [of_isDigit ascii.1]),
    if_neg (by simp [of_isDigit ascii.1]), if_pos ascii.1, taken, left]

/-- A text is read as the tokens that it spells when its numbers stand apart. -/
theorem Spells.ofChars?_eq (spelled : Spells cs ts) (separated : Separated ts) :
    ofChars? cs = some ts := by
  induction spelled with
  | nothing => rw [ofChars?]
  | blank white _ ih => rw [ofChars?, if_pos white, ih separated]
  | @token lexeme cs t ts this longest rest ih =>
    have tail := ih separated.tail
    cases this with
    | @sign c _ table =>
      obtain ⟨black, not_letter, not_digit, _⟩ := of_ofSign? table
      rw [List.singleton_append, ofChars?, if_neg (by simp [black]), if_neg (by simp [not_letter]),
        if_neg (by simp [not_digit]), table, tail]
      rfl
    | name some_letter ascii =>
      rw [ofChars?_name some_letter ascii (longest rfl), tail]
      rfl
    | whole some_digit ascii =>
      have apart := rest.not_in_number separated.not_number_follows
      obtain ⟨none, stays⟩ := no_fraction fun c first => (apart c first).2
      rw [ofChars?_number some_digit ascii fun c first => by simp [apart c first], none, stays,
        tail]
      rfl
    | @decimal digits places some_digit some_place ascii ascii_places =>
      have apart := rest.not_in_number separated.not_number_follows
      have after : ∀ c ∈ cs.head?, ¬ c.isDigit := fun c first => by simp [apart c first]
      obtain ⟨taken, left⟩ := span_append ascii_places after
      rw [List.append_assoc, List.cons_append, ofChars?_number some_digit ascii, fractionDigits,
        afterFraction, taken, left, if_neg (by simpa using some_place), tail]
      · rfl
      · rintro c ⟨⟩
        decide

end Reading

section Composition

variable {cs more : List Char} {ts us : List Token}

/-- No letter stands right behind a letter where two texts meet. -/
def Meet (cs more : List Char) : Prop :=
  ∀ c ∈ cs.getLast?, ∀ d ∈ more.head?, ¬ (c.isAlpha ∧ d.isAlpha)

theorem Meet.of_last (apart : ∀ c ∈ cs.getLast?, ¬ c.isAlpha) : Meet cs more :=
  fun c last _ _ letters => apart c last letters.1

theorem Meet.cons (meet : Meet cs more) {c : Char} (other : ¬ c.isAlpha) :
    Meet (c :: cs) more := by
  intro d last
  cases cs with
  | nil =>
    cases last
    exact fun _ _ letters => other letters.1
  | cons b cs => exact meet d (by rwa [List.getLast?_cons_cons] at last)

theorem Meet.append {front : List Char} (some_char : cs ≠ []) (meet : Meet cs more) :
    Meet (front ++ cs) more := by
  intro c last
  rw [List.getLast?_append_of_ne_nil front some_char] at last
  exact meet c last

theorem Lexeme.ne_nil {t : Token} (lexeme : Lexeme cs t) : cs ≠ [] := by
  cases lexeme with
  | sign => exact List.cons_ne_nil _ _
  | name some_letter => exact some_letter
  | whole some_digit => exact some_digit
  | decimal => exact List.append_ne_nil_of_right_ne_nil _ (List.cons_ne_nil _ _)

/-- No token has any other characters. -/
theorem Lexeme.characters {t : Token} (lexeme : Lexeme cs t) :
    ∀ c ∈ cs, (ofSign? c).isSome ∨ c.isAlpha ∨ c.isDigit ∨ c = '.' := by
  cases lexeme with
  | sign table =>
    rw [List.forall_mem_singleton, table]
    exact .inl rfl
  | name _ ascii => exact fun c member => .inr (.inl (ascii c member))
  | whole _ ascii => exact fun c member => .inr (.inr (.inl (ascii c member)))
  | decimal _ _ ascii ascii_places =>
    rw [List.forall_mem_append, List.forall_mem_cons]
    exact ⟨fun c member => .inr (.inr (.inl (ascii c member))), .inr (.inr (.inr rfl)),
      fun c member => .inr (.inr (.inl (ascii_places c member)))⟩

theorem Lexeme.spells {t : Token} (lexeme : Lexeme cs t) : Spells cs [t] := by
  rw [← List.append_nil cs]
  exact .token lexeme nofun .nothing

theorem Lexeme.natural (m : Nat) : Lexeme (Nat.toDigits 10 m) (.number m 0) := by
  have lexeme := Lexeme.whole (Nat.toDigits_ne_nil (n := m) (b := 10))
    fun c => Nat.isDigit_of_mem_toDigits (by decide) (by decide)
  rwa [numeral, List.append_nil, Nat.ofDigitChars_toDigits (by decide) (by decide)] at lexeme

theorem Lexeme.last_isAlpha {t : Token} (lexeme : Lexeme cs t) (named : t.isName) :
    ∀ c ∈ cs.getLast?, c.isAlpha := by
  cases lexeme with
  | sign table => rw [isName_of_ofSign? table] at named; cases named
  | name _ ascii => exact fun c last => ascii c (List.mem_of_getLast? last)
  | whole => cases named
  | decimal => cases named

theorem Spells.append (first : Spells cs ts) (second : Spells more us) (meet : Meet cs more) :
    Spells (cs ++ more) (ts ++ us) := by
  induction first with
  | nothing => exact second
  | blank white _ ih =>
    exact .blank white (ih fun d last => meet d (List.mem_getLast?_cons last))
  | @token lexeme cs t ts this longest _ ih =>
    rw [List.append_assoc]
    refine .token this (fun named c follows => ?_)
      (ih fun d last => meet d (List.mem_getLast?_append_of_mem_getLast? last))
    cases cs with
    | cons d cs => exact longest named c follows
    | nil =>
      -- the name ends where the texts meet
      intro letter
      rw [List.append_nil] at meet
      have last := List.getLast?_eq_some_getLast this.ne_nil
      exact meet _ last c follows ⟨this.last_isAlpha named _ last, letter⟩

/-- A sign with blanks around it keeps two texts apart. -/
theorem Spells.join {sign : Char} {t : Token} (table : ofSign? sign = some t)
    (first : Spells cs ts) (second : Spells more us) :
    Spells (cs ++ ' ' :: sign :: ' ' :: more) (ts ++ t :: us) := by
  refine first.append (.blank rfl (.sign table (.blank rfl second))) ?_
  rintro c _ d ⟨⟩ ⟨-, letter⟩
  cases letter

end Composition

end ExactAlgebra.Token
