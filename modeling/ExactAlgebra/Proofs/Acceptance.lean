import ExactAlgebra.Proofs.Lowering
import ExactAlgebra.Proofs.Parsing
import ExactAlgebra.Reading

/-!
Which texts are read. A text is unreadable only if no formula is written in it, as building the
expression of a formula fails for other causes. An equation has one equals sign and a readable
formula on each side of it, since no formula has an equals sign and blanks are none.
-/
namespace ExactAlgebra

section Sides

variable {cs : List Char}

theorem Token.Spells.no_equals {ts : List Token} (spelled : Token.Spells cs ts) : '=' ∉ cs := by
  induction spelled with
  | nothing => exact List.not_mem_nil
  | blank white _ ih =>
    rw [List.mem_cons, not_or]
    refine ⟨?_, ih⟩
    rintro rfl
    cases white
  | token this _ _ ih =>
    rw [List.mem_append, not_or]
    exact ⟨fun member => absurd (this.characters _ member) (by decide), ih⟩

theorem Token.Lexeme.not_blank {t : Token} (lexeme : Token.Lexeme cs t) :
    ∀ c ∈ cs, ¬ isUnicodeBlank c := by
  intro c member
  obtain sign | letter | digit | rfl := lexeme.characters c member
  · unfold Token.ofSign? at sign
    split at sign <;> first | decide | cases sign
  · have range := Token.toNat_of_isAlpha letter
    simp [isUnicodeBlank]
    omega
  · have range := Token.toNat_of_isDigit digit
    simp [isUnicodeBlank]
    omega
  · decide

theorem Token.Spells.of_dropWhile {ts : List Token} (spelled : Token.Spells cs ts) :
    Token.Spells (cs.dropWhile isUnicodeBlank) ts := by
  induction spelled with
  | nothing => exact .nothing
  | @blank c cs ts white rest ih =>
    rw [List.dropWhile_cons]
    split
    · exact ih
    · exact .blank white rest
  | @token lexeme cs t ts this longest rest _ =>
    obtain ⟨c, lexeme, rfl⟩ := List.exists_cons_of_ne_nil this.ne_nil
    rw [List.cons_append, List.dropWhile_cons_of_neg (this.not_blank c List.mem_cons_self)]
    exact .token this longest rest

/-- A blank at the end is not part of a token. -/
theorem Token.Spells.of_append_blank {ts : List Token} {c : Char} (white : isUnicodeBlank c)
    (spelled : Token.Spells (cs ++ [c]) ts) : Token.Spells cs ts := by
  generalize same : cs ++ [c] = text at spelled
  induction spelled generalizing cs with
  | nothing => exact absurd same (by simp)
  | @blank d rest ts black spelled ih =>
    cases cs with
    | nil => cases same; exact spelled
    | cons b cs =>
      cases same
      exact .blank black (ih rfl)
  | @token lexeme rest t ts this longest spelled ih =>
    obtain rfl | ⟨rest, d, rfl⟩ := List.eq_nil_or_concat' rest
    · rw [List.append_nil] at same
      subst same
      exact absurd white (this.not_blank c (List.mem_append_right _ List.mem_cons_self))
    · rw [← List.append_assoc] at same
      obtain ⟨rfl, last⟩ := List.append_inj' same rfl
      cases last
      refine .token this (fun named d first => longest named d ?_) (ih rfl)
      rw [List.head?_append, first]
      rfl

theorem Token.Spells.trim {ts : List Token} (spelled : Token.Spells cs ts) :
    Token.Spells (trimBlanks cs) ts := by
  have ends (cs : List Char) (spelled : Token.Spells cs.reverse ts) :
      Token.Spells (cs.dropWhile isUnicodeBlank).reverse ts := by
    induction cs with
    | nil => exact spelled
    | cons c cs ih =>
      rw [List.dropWhile_cons]
      split
      · next white =>
        rw [List.reverse_cons] at spelled
        exact ih (spelled.of_append_blank white)
      · exact spelled
  refine ends _ ?_
  rw [List.reverse_reverse]
  exact spelled.of_dropWhile

theorem splitAtEquals?_eq_some_iff {left right : List Char} :
    splitAtEquals? cs = some (left, right) ↔ cs = left ++ '=' :: right ∧ '=' ∉ left := by
  induction cs generalizing left with
  | nil => simp [splitAtEquals?]
  | cons c cs ih =>
    rw [splitAtEquals?]
    split
    · next sign =>
      subst sign
      cases left with
      | nil => simp [eq_comm]
      | cons d left =>
        simp only [Option.some.injEq, Prod.mk.injEq, reduceCtorEq, false_and, false_iff]
        rintro ⟨same, absent⟩
        cases same
        exact absent List.mem_cons_self
    · next other =>
      constructor
      · intro split
        obtain ⟨⟨before, after⟩, found, same⟩ := Option.map_eq_some_iff.mp split
        cases same
        obtain ⟨rfl, absent⟩ := ih.mp found
        refine ⟨rfl, ?_⟩
        rw [List.mem_cons, not_or]
        exact ⟨fun sign => other sign.symm, absent⟩
      · rintro ⟨same, absent⟩
        cases left with
        | nil => cases same; exact absurd rfl other
        | cons d left =>
          cases same
          rw [ih.mpr ⟨rfl, fun member => absent (List.mem_cons_of_mem _ member)⟩]
          rfl

theorem mem_dropWhile_of_not {p : Char → Bool} {c : Char} (member : c ∈ cs) (kept : ¬ p c) :
    c ∈ cs.dropWhile p := by
  rw [← List.takeWhile_append_dropWhile (p := p) (l := cs), List.mem_append] at member
  exact member.resolve_left fun taken => kept (List.mem_takeWhile_imp taken)

theorem mem_trimBlanks {c : Char} (member : c ∈ cs) (kept : ¬ isUnicodeBlank c) :
    c ∈ trimBlanks cs :=
  List.mem_reverse.mpr <|
    mem_dropWhile_of_not (List.mem_reverse.mpr (mem_dropWhile_of_not member kept)) kept

end Sides

theorem Laurent.ofChars_unreadable_iff {greek : GreekNames} {cs : List Char} :
    (∃ failure, Laurent.ofChars greek cs = .error failure ∧ failure.kind = .unreadable) ↔
      ¬ ∃ f, Formula.Sentence cs f := by
  unfold ofChars
  cases read : Formula.ofChars? cs with
  | none =>
    refine ⟨?_, fun _ => ⟨.unreadable, rfl, rfl⟩⟩
    rintro - ⟨f, written⟩
    rw [Formula.ofChars?_eq_some_iff.mpr written] at read
    cases read
  | some f =>
    refine ⟨?_, fun none => absurd ⟨f, Formula.ofChars?_eq_some_iff.mp read⟩ none⟩
    rintro ⟨failure, failed, kind⟩
    exact absurd kind (AboutValues.toLaurent greek f failure failed)

theorem Formula.Sentence.ofChars {greek : GreekNames} {cs : List Char} {f : Formula}
    (written : Formula.Sentence cs f) : Laurent.ofChars greek cs = f.toLaurent greek := by
  rw [Laurent.ofChars, Formula.ofChars?_eq_some_iff.mpr written]

theorem Laurent.ofChars_ok_no_equals {greek : GreekNames} {cs : List Char} {e : Laurent}
    (read : Laurent.ofChars greek (trimBlanks cs) = .ok e) : '=' ∉ cs := by
  unfold ofChars at read
  split at read
  · cases read
  · next f written =>
    obtain ⟨ts, spelled, _⟩ := Formula.ofChars?_eq_some_iff.mp written
    exact fun member => spelled.no_equals (mem_trimBlanks member (by decide))

theorem Equation.read_ok_iff {greek : GreekNames} {text : String} :
    (∃ q, Equation.read greek text = .ok q) ↔
      ∃ left right, text.toList = left ++ '=' :: right ∧ '=' ∉ left ∧ '=' ∉ right ∧
        (∃ e, Laurent.read greek (String.ofList (trimBlanks left)) = .ok e) ∧
        ∃ e, Laurent.read greek (String.ofList (trimBlanks right)) = .ok e := by
  unfold Equation.read Laurent.read
  simp only [String.toList_ofList]
  constructor
  · rintro ⟨q, read⟩
    split at read
    · cases read
    · next left right found =>
      obtain ⟨text, absent⟩ := splitAtEquals?_eq_some_iff.mp found
      obtain ⟨e, first, read⟩ := exists_of_bind read
      obtain ⟨e', second, -⟩ := exists_of_bind read
      exact ⟨left, right, text, absent, Laurent.ofChars_ok_no_equals second, ⟨e, first⟩, e', second⟩
  · rintro ⟨left, right, text, absent, -, ⟨e, first⟩, e', second⟩
    rw [splitAtEquals?_eq_some_iff.mpr ⟨text, absent⟩]
    exact ⟨_, by simp only [first, second]; rfl⟩

/-- A text is unreadable exactly if it is no sentence of the grammar, a sentence has one formula and
is read as what that formula stands for, and an equation has one equals sign between two texts that
are read. -/
theorem Laurent.read_exactly_sentences (greek : GreekNames) (text : String) :
    ((∃ failure, Laurent.read greek text = .error failure ∧ failure.kind = .unreadable) ↔
        ¬ ∃ f, Formula.Sentence text.toList f) ∧
      (∀ f, Formula.Sentence text.toList f →
        (∀ g, Formula.Sentence text.toList g → g = f) ∧
          Laurent.read greek text = f.toLaurent greek) ∧
      ((∃ q, Equation.read greek text = .ok q) ↔
        ∃ left right, text.toList = left ++ '=' :: right ∧ '=' ∉ left ∧ '=' ∉ right ∧
          (∃ e, Laurent.read greek (String.ofList (trimBlanks left)) = .ok e) ∧
          ∃ e, Laurent.read greek (String.ofList (trimBlanks right)) = .ok e) :=
  ⟨Laurent.ofChars_unreadable_iff,
    fun _ written => ⟨fun _ other => other.unique written, written.ofChars⟩,
    Equation.read_ok_iff⟩

end ExactAlgebra
