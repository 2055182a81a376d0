import ExactAlgebra.Proofs.PlainText
import ExactAlgebra.Proofs.Queries
import ExactAlgebra.Tex

/-!
The control words of TeX. A backslash takes the longest run of letters behind it, so a command is
what it was meant to be only if no letter comes right behind its name. Digits, braces and the signs
of a sum end a name, and so do the blanks around a multiplication sign; the letters of a symbol that
stands side by side with the name before it do not.
-/
namespace ExactAlgebra

namespace Tex

/-- Behind each backslash the longest run of letters. A backslash before another character takes
that character and makes no control word. -/
def controlWords : List Char → List String
  | '\\' :: c :: cs =>
    if c.isAlpha then String.ofList (c :: cs.takeWhile Char.isAlpha) :: controlWords cs
    else controlWords cs
  | _ :: cs => controlWords cs
  | [] => []

/-- A nonempty text of letters. -/
structure IsName (name : String) : Prop where
  some_letter : name.toList ≠ []
  letters : ∀ c ∈ name.toList, c.isAlpha

instance (name : String) : Decidable (IsName name) :=
  decidable_of_iff (name.toList ≠ [] ∧ name.toList.all Char.isAlpha = true)
    ⟨fun h => ⟨h.1, List.all_eq_true.mp h.2⟩, fun h => ⟨h.1, List.all_eq_true.mpr h.2⟩⟩

section Reading

theorem controlWords_cons {c : Char} (other : c ≠ '\\') (cs : List Char) :
    controlWords (c :: cs) = controlWords cs := by
  rw [controlWords]
  rintro _ _ rfl _
  exact other rfl

theorem controlWords_append_of_bare {cs : List Char} (bare : '\\' ∉ cs) (rest : List Char) :
    controlWords (cs ++ rest) = controlWords rest := by
  induction cs with
  | nil => rfl
  | cons c cs ih =>
    simp only [List.mem_cons, not_or] at bare
    rw [List.cons_append, controlWords_cons (Ne.symm bare.1), ih bare.2]

theorem takeWhile_append_stop {d : Char} (stop : d.isAlpha = false) (cs rest : List Char) :
    (cs ++ d :: rest).takeWhile Char.isAlpha = cs.takeWhile Char.isAlpha := by
  induction cs with
  | nil => simp [stop]
  | cons c cs ih => simp [List.takeWhile_cons, ih]

/-- A character that is no letter ends every control word before it. -/
theorem controlWords_append_cons {d : Char} (stop : d.isAlpha = false) (other : d ≠ '\\')
    (cs rest : List Char) :
    controlWords (cs ++ d :: rest) = controlWords cs ++ controlWords rest := by
  fun_induction controlWords cs with
  | case1 c cs letter ih => simp [controlWords, letter, takeWhile_append_stop stop, ih]
  | case2 c cs letter ih => simp [controlWords, letter, ih]
  | case3 c cs lone ih =>
    by_cases slash : c = '\\'
    · -- a backslash at the end of the text takes the character
      cases cs with
      | nil => simp [controlWords, slash, stop]
      | cons e cs => exact (lone e cs slash rfl).elim
    · rw [List.cons_append, controlWords_cons slash, ih]
  | case4 => simp [controlWords_cons other]

namespace IsName

variable {name : String} (h : IsName name)
include h

theorem bare : '\\' ∉ name.toList := fun member => absurd (h.letters _ member) (by decide)

/-- A command takes the letters that come right behind its name. -/
theorem controlWords_command (rest : List Char) : controlWords ((command name).toList ++ rest) =
    (name ++ String.ofList (rest.takeWhile Char.isAlpha)) :: controlWords rest := by
  have text : (command name).toList = '\\' :: name.toList := by simp [command]
  have word : name ++ String.ofList (rest.takeWhile Char.isAlpha) =
      String.ofList (name.toList ++ rest.takeWhile Char.isAlpha) := by simp
  have bare := h.bare
  obtain ⟨some_letter, letters⟩ := h
  rw [text, word]
  generalize name.toList = cs at some_letter letters bare
  obtain ⟨c, cs, rfl⟩ := List.exists_cons_of_ne_nil some_letter
  obtain ⟨first, others⟩ := List.forall_mem_cons.mp letters
  simp only [List.mem_cons, not_or] at bare
  simp [controlWords, first, List.takeWhile_append_of_pos others,
    controlWords_append_of_bare bare.2]

end IsName

end Reading

section Numbers

theorem bare_toString_nat (m : ℕ) : '\\' ∉ (toString m).toList := by
  have digits : (toString m).toList = Nat.toDigits 10 m := String.toList_ofList
  rw [digits]
  intro member
  exact absurd (Nat.isDigit_of_mem_toDigits (by decide) (by decide) member) (by decide)

theorem bare_toString : ∀ n : ℤ, '\\' ∉ (toString n).toList
  | .ofNat m => bare_toString_nat m
  | .negSucc m => by
    have sign : toString (Int.negSucc m) = "-" ++ toString (m + 1) := rfl
    have digits := bare_toString_nat (m + 1)
    rw [sign, String.toList_append]
    exact List.not_mem_append (by simp) digits

theorem bare_braced {body : String} (bare : '\\' ∉ body.toList) :
    '\\' ∉ (braced body).toList := by
  simp [braced, bare]

theorem controlWords_fraction {above below : String} (first : '\\' ∉ above.toList)
    (second : '\\' ∉ below.toList) (rest : List Char) :
    controlWords ((fraction above below).toList ++ rest) = "frac" :: controlWords rest := by
  have frac : IsName "frac" := by decide +kernel
  have braces : '\\' ∉ (braced above ++ braced below).toList := by
    simp [bare_braced first, bare_braced second]
  have stop : ((braced above ++ braced below).toList ++ rest).takeWhile Char.isAlpha = [] := by
    simp [braced]
  rw [fraction, String.append_assoc, String.toList_append, List.append_assoc,
    frac.controlWords_command, controlWords_append_of_bare braces, stop]
  rfl

end Numbers

end Tex

open Tex

section Ratios

variable {r : Ratio} {w : String}

theorem Ratio.controlWords_tex (r : Ratio) (rest : List Char) :
    controlWords (r.tex.toList ++ rest) =
      (if r.reduce.isInteger then [] else ["frac"]) ++ controlWords rest := by
  unfold tex
  split
  · exact controlWords_append_of_bare (bare_toString _) rest
  · have sign : '\\' ∉ (if r.reduce.isNegative then "-" else "").toList := by split <;> simp
    rw [String.toList_append, List.append_assoc, controlWords_append_of_bare sign]
    exact controlWords_fraction (bare_toString_nat _) (bare_toString _) rest

theorem Ratio.mem_controlWords_tex (member : w ∈ controlWords r.tex.toList) : w = "frac" := by
  have words := r.controlWords_tex []
  rw [List.append_nil] at words
  rw [words] at member
  split at member <;> simp_all [controlWords]

end Ratios

namespace Power

variable {style : TexStyle} {p q : Power} {w : String}

/-- What stands behind the symbol. -/
def superscript (p : Power) : String :=
  if p.degree = 1 then "" else "^" ++ braced (toString p.degree)

/-- The control words that a power puts in front of those of the text behind it: its symbol, if that
is a name of the list, with the letters that come right behind. -/
def commands (greek : GreekNames) (p : Power) (rest : List Char) : List String :=
  if greek.contains p.symbol then
    [p.symbol ++ String.ofList ((p.superscript.toList ++ rest).takeWhile Char.isAlpha)]
  else []

/-- A power that ends with the name of a command before one that begins with letters. -/
def RunsInto (greek : GreekNames) (p q : Power) : Prop :=
  greek.contains p.symbol = true ∧ p.degree = 1 ∧ greek.contains q.symbol = false

instance (greek : GreekNames) (p q : Power) : Decidable (p.RunsInto greek q) :=
  inferInstanceAs (Decidable (_ ∧ _))

theorem bare_superscript (p : Power) : '\\' ∉ p.superscript.toList := by
  unfold superscript
  split
  · simp
  · rw [String.toList_append]
    exact List.not_mem_append (by simp) (bare_braced (bare_toString _))

theorem tex_of_listed (listed : style.greek.contains p.symbol = true) :
    (p.tex style).toList = (command p.symbol).toList ++ p.superscript.toList := by
  simp only [tex, listed, superscript]
  split <;> simp

theorem tex_of_unlisted (unlisted : style.greek.contains p.symbol = false) :
    (p.tex style).toList = p.symbol.toList ++ p.superscript.toList := by
  simp only [tex, unlisted, superscript]
  split <;> simp

theorem controlWords_tex (name : IsName p.symbol) (rest : List Char) :
    controlWords ((p.tex style).toList ++ rest) =
      p.commands style.greek rest ++ controlWords rest := by
  cases listed : style.greek.contains p.symbol with
  | true =>
    rw [tex_of_listed listed, List.append_assoc, name.controlWords_command,
      controlWords_append_of_bare p.bare_superscript, commands, if_pos listed]
    rfl
  | false =>
    rw [tex_of_unlisted listed, List.append_assoc, controlWords_append_of_bare name.bare,
      controlWords_append_of_bare p.bare_superscript, commands, listed]
    rfl

/-- The symbol alone, where no letter comes right behind the power. -/
theorem commands_of_stop (p : Power) {greek : GreekNames} {rest : List Char}
    (stop : p.degree = 1 → rest.takeWhile Char.isAlpha = []) :
    p.commands greek rest = if greek.contains p.symbol then [p.symbol] else [] := by
  have none : (p.superscript.toList ++ rest).takeWhile Char.isAlpha = [] := by
    by_cases linear : p.degree = 1
    · simp [superscript, linear, stop linear]
    · simp [superscript, linear]
  rw [commands, none, String.ofList_nil, String.append_empty]

theorem commands_of_not_runsInto (apart : ¬ p.RunsInto style.greek q) (rest : List Char) :
    p.commands style.greek ((q.tex style).toList ++ rest) =
      if style.greek.contains p.symbol then [p.symbol] else [] := by
  by_cases named : style.greek.contains p.symbol = true
  · refine p.commands_of_stop fun linear => ?_
    have listed : style.greek.contains q.symbol = true := by
      simpa [RunsInto, named, linear] using apart
    simp [tex_of_listed listed, command]
  · simp [commands, named]

/-- Where a power runs into another, the symbols of both stand in one control word. -/
theorem commands_of_runsInto (runs : p.RunsInto style.greek q) (name : IsName q.symbol)
    (rest : List Char) : ∃ more,
    p.commands style.greek ((q.tex style).toList ++ rest) = [p.symbol ++ (q.symbol ++ more)] := by
  obtain ⟨named, linear, unlisted⟩ := runs
  refine ⟨String.ofList ((q.superscript.toList ++ rest).takeWhile Char.isAlpha), ?_⟩
  simp [commands, named, tex_of_unlisted unlisted, superscript, linear,
    List.takeWhile_append_of_pos name.letters]

theorem mem_controlWords_tex (name : IsName p.symbol)
    (member : w ∈ controlWords (p.tex style).toList) :
    p.symbol = w ∧ style.greek.contains p.symbol = true := by
  have words : controlWords ((p.tex style).toList ++ []) = _ := controlWords_tex name []
  rw [List.append_nil, p.commands_of_stop fun _ => rfl] at words
  rw [words] at member
  split at member <;> simp_all [controlWords]

section Texts

variable {powers : List Power}

/-- Where no power runs into the next one, each name of the list is a control word. -/
theorem controlWords_texts (names : ∀ p ∈ powers, IsName p.symbol)
    (apart : powers.IsChain fun p q => ¬ p.RunsInto style.greek q) :
    controlWords (powers.flatMap fun p => (p.tex style).toList) =
      (powers.filter fun p => style.greek.contains p.symbol).map symbol := by
  induction powers with
  | nil => rfl
  | cons p powers ih =>
    obtain ⟨name, others⟩ := List.forall_mem_cons.mp names
    obtain ⟨first, chain⟩ := List.isChain_cons.mp apart
    have alone : p.commands style.greek (powers.flatMap fun p => (p.tex style).toList) =
        if style.greek.contains p.symbol then [p.symbol] else [] := by
      cases powers with
      | nil => exact p.commands_of_stop fun _ => rfl
      | cons q powers => exact commands_of_not_runsInto (first q rfl) _
    rw [List.flatMap_cons, controlWords_tex name, alone, ih others chain, List.filter_cons]
    split <;> rfl

theorem controlWords_suffix (names : ∀ p ∈ powers, IsName p.symbol) (rest : List Char) :
    controlWords rest <:+
      controlWords ((powers.flatMap fun p => (p.tex style).toList) ++ rest) := by
  induction powers with
  | nil => exact List.suffix_rfl
  | cons p powers ih =>
    obtain ⟨name, others⟩ := List.forall_mem_cons.mp names
    rw [List.flatMap_cons, List.append_assoc, controlWords_tex name]
    exact (ih others).trans (List.suffix_append _ _)

theorem exists_controlWord_of_runsInto {front back : List Power}
    (names : ∀ r ∈ front ++ p :: q :: back, IsName r.symbol) (runs : p.RunsInto style.greek q) :
    ∃ more, p.symbol ++ (q.symbol ++ more) ∈
      controlWords ((front ++ p :: q :: back).flatMap fun r => (r.tex style).toList) := by
  obtain ⟨before, names⟩ := List.forall_mem_append.mp names
  obtain ⟨name, names⟩ := List.forall_mem_cons.mp names
  obtain ⟨name', -⟩ := List.forall_mem_cons.mp names
  obtain ⟨more, command⟩ :=
    commands_of_runsInto runs name' (back.flatMap fun r => (r.tex style).toList)
  refine ⟨more, ?_⟩
  rw [List.flatMap_append]
  refine (controlWords_suffix before _).subset ?_
  rw [List.flatMap_cons, controlWords_tex name, List.flatMap_cons, command]
  exact List.mem_cons_self

end Texts

end Power

namespace Tex

section Separators

variable {sign : String} {w : String}

theorem controlWords_glue (name : IsName sign) (t more : String) :
    controlWords (t ++ (" " ++ command sign ++ " ") ++ more).toList =
      controlWords t.toList ++ sign :: controlWords more.toList := by
  have text : (t ++ (" " ++ command sign ++ " ") ++ more).toList =
      t.toList ++ ' ' :: ((command sign).toList ++ ' ' :: more.toList) := by simp
  rw [text, controlWords_append_cons rfl (by decide), name.controlWords_command,
    controlWords_cons (by decide)]
  simp

/-- A multiplication sign keeps the control words of the factors apart. -/
theorem mem_controlWords_intercalate (name : IsName sign) {texts : List String}
    (member : w ∈ controlWords ((" " ++ command sign ++ " ").intercalate texts).toList) :
    w = sign ∨ ∃ t ∈ texts, w ∈ controlWords t.toList := by
  induction texts with
  | nil => cases member
  | cons t texts ih =>
    cases texts with
    | nil =>
      rw [String.intercalate_singleton] at member
      exact .inr ⟨t, List.mem_cons_self, member⟩
    | cons u texts =>
      rw [String.intercalate_cons_cons, controlWords_glue name, List.mem_append,
        List.mem_cons] at member
      obtain first | rfl | rest := member
      · exact .inr ⟨t, List.mem_cons_self, first⟩
      · exact .inl rfl
      · obtain same | ⟨v, hv, inText⟩ := ih rest
        · exact .inl same
        · exact .inr ⟨v, List.mem_cons_of_mem _ hv, inText⟩

theorem controlWords_text (s : Signed) : controlWords s.text.toList = controlWords s.2.toList := by
  unfold Signed.text
  split
  · rw [String.toList_append]
    exact controlWords_cons (by decide) _
  · rfl

theorem controlWords_follow (s : Signed) (cs rest : List Char) :
    controlWords (cs ++ (s.follow.toList ++ rest)) =
      controlWords cs ++ controlWords (s.2.toList ++ rest) := by
  obtain ⟨d, sign, text⟩ : ∃ d, d ≠ '\\' ∧ s.follow.toList = ' ' :: d :: ' ' :: s.2.toList := by
    unfold Signed.follow
    split
    · exact ⟨'-', by decide, by simp⟩
    · exact ⟨'+', by decide, by simp⟩
  rw [text, List.cons_append, controlWords_append_cons rfl (by decide), List.cons_append,
    controlWords_cons sign, List.cons_append, controlWords_cons (by decide)]

theorem controlWords_join (cs : List Char) (rest : List Signed) :
    controlWords (cs ++ (String.join (rest.map Signed.follow)).toList) =
      controlWords cs ++ rest.flatMap fun s => controlWords s.2.toList := by
  rw [String.toList_join, List.flatMap_map]
  induction rest generalizing cs with
  | nil => simp
  | cons s rest ih => simp only [List.flatMap_cons, controlWords_follow, ih]

/-- The signs of a sum keep the control words of its members apart. -/
theorem controlWords_sum (pieces : List Signed) :
    controlWords (Signed.sum pieces).toList =
      pieces.flatMap fun s => controlWords s.2.toList := by
  cases pieces with
  | nil => simp [Signed.sum, controlWords]
  | cons s rest =>
    have whole := controlWords_join s.text.toList rest
    rw [controlWords_text, ← String.toList_append] at whole
    rw [List.flatMap_cons, ← whole, Signed.sum]
    split
    · next empty =>
      rw [String.isEmpty_iff.mp empty]
      simp [controlWords]
    · rfl

end Separators

end Tex

namespace Monomial

variable {style : TexStyle} {m : Monomial} {w : String}

/-- No power of the term runs into the next one. -/
def KeepsApart (greek : GreekNames) (m : Monomial) : Prop :=
  m.powers.IsChain fun p q => ¬ p.RunsInto greek q

instance (greek : GreekNames) (m : Monomial) : Decidable (m.KeepsApart greek) :=
  inferInstanceAs (Decidable (m.powers.IsChain _))

theorem toList_juxtaposed (juxtaposed : style.explicit = false) (some_power : m.powers ≠ []) :
    ((Script.tex style).signedMonomial m).2.toList =
      ((Script.tex style).factor? m.coefficient).toList.flatMap String.toList ++
        m.powers.flatMap fun p => (p.tex style).toList := by
  rw [Script.signedMonomial, if_neg (by simpa using some_power)]
  simp only [Script.tex, juxtaposed, Bool.false_eq_true, if_false, toList_intercalate_empty,
    List.flatMap_append, List.flatMap_map]

theorem controlWords_factor? (style : TexStyle) (r : Ratio) (rest : List Char) : ∃ words ⊆ ["frac"],
    controlWords (((Script.tex style).factor? r).toList.flatMap String.toList ++ rest) =
      words ++ controlWords rest := by
  unfold Script.factor?
  split
  · exact ⟨[], by simp, rfl⟩
  · rw [Option.toList_some, List.flatMap_singleton]
    refine ⟨_, ?_, r.abs.controlWords_tex rest⟩
    split <;> simp

/-- What a control word of a term stands for. -/
inductive Meant (style : TexStyle) (m : Monomial) : String → Prop
  | fraction : Meant style m "frac"
  | multiplication : Meant style m style.multiplication
  | symbol {p : Power} (power : p ∈ m.powers) (listed : style.greek.contains p.symbol = true) :
    Meant style m p.symbol

section Meaning

variable (names : ∀ p ∈ m.powers, IsName p.symbol)
include names

theorem meant_of_explicit (sign : IsName style.multiplication) (explicit : style.explicit = true)
    (some_power : m.powers ≠ [])
    (member : w ∈ controlWords ((Script.tex style).signedMonomial m).2.toList) :
    m.Meant style w := by
  rw [Script.signedMonomial, if_neg (by simpa using some_power)] at member
  simp only [Script.tex, explicit, if_true] at member
  obtain rfl | ⟨t, ht, inText⟩ := mem_controlWords_intercalate sign member
  · exact .multiplication
  obtain factor | power := List.mem_append.mp ht
  · obtain ⟨-, rfl⟩ : m.coefficient.abs.isOne = false ∧ m.coefficient.abs.tex = t := by
      simpa [Script.factor?] using factor
    obtain rfl := Ratio.mem_controlWords_tex inText
    exact .fraction
  · obtain ⟨p, hp, rfl⟩ := List.mem_map.mp power
    obtain ⟨rfl, listed⟩ := Power.mem_controlWords_tex (names p hp) inText
    exact .symbol hp listed

theorem meant_of_keepsApart (juxtaposed : style.explicit = false) (some_power : m.powers ≠ [])
    (apart : m.KeepsApart style.greek)
    (member : w ∈ controlWords ((Script.tex style).signedMonomial m).2.toList) :
    m.Meant style w := by
  obtain ⟨words, fractions, text⟩ := controlWords_factor? style m.coefficient
    (m.powers.flatMap fun p => (p.tex style).toList)
  rw [toList_juxtaposed juxtaposed some_power, text, Power.controlWords_texts names apart,
    List.mem_append] at member
  obtain fraction | power := member
  · obtain rfl := List.mem_singleton.mp (fractions fraction)
    exact .fraction
  · obtain ⟨p, hp, rfl⟩ := List.mem_map.mp power
    obtain ⟨member, listed⟩ := List.mem_filter.mp hp
    exact .symbol member listed

/-- Where its factors are kept apart, every control word of a term is meant. -/
theorem meant_of_mem (sign : IsName style.multiplication)
    (apart : style.explicit = true ∨ m.KeepsApart style.greek)
    (member : w ∈ controlWords ((Script.tex style).signedMonomial m).2.toList) :
    m.Meant style w := by
  by_cases number : m.powers = []
  · rw [Script.signedMonomial, if_pos (by simp [number])] at member
    obtain rfl := Ratio.mem_controlWords_tex member
    exact .fraction
  cases explicit : style.explicit with
  | true => exact meant_of_explicit names sign explicit number member
  | false =>
    have keeps := apart.resolve_left (by simp [explicit])
    exact meant_of_keepsApart names explicit number keeps member

end Meaning

/-- Where nothing stands between the factors, a power that runs into the next one joins it. -/
theorem exists_controlWord_of_runsInto (names : ∀ r ∈ m.powers, IsName r.symbol)
    (juxtaposed : style.explicit = false) {p q : Power} (next : [p, q] <:+: m.powers)
    (runs : p.RunsInto style.greek q) : ∃ more, p.symbol ++ (q.symbol ++ more) ∈
      controlWords ((Script.tex style).signedMonomial m).2.toList := by
  obtain ⟨front, back, powers⟩ := next
  rw [List.append_assoc] at powers
  have some_power : m.powers ≠ [] := by simp [← powers]
  obtain ⟨words, -, text⟩ := controlWords_factor? style m.coefficient
    (m.powers.flatMap fun p => (p.tex style).toList)
  rw [toList_juxtaposed juxtaposed some_power, text]
  rw [← powers] at names ⊢
  obtain ⟨more, member⟩ := Power.exists_controlWord_of_runsInto names runs
  exact ⟨more, List.mem_append_right words member⟩

end Monomial

namespace Laurent

variable {style : TexStyle} {e : Laurent} {w : String}

def KeepsApart (greek : GreekNames) (e : Laurent) : Prop := ∀ m ∈ e.terms, m.KeepsApart greek

instance (greek : GreekNames) (e : Laurent) : Decidable (e.KeepsApart greek) :=
  inferInstanceAs (Decidable (∀ m ∈ e.terms, _))

theorem mem_controlWords_tex_iff : w ∈ controlWords (e.tex style).toList ↔
    (∃ m ∈ e.terms, w ∈ controlWords ((Script.tex style).signedMonomial m).2.toList) ∨
      e.constant.isZero = false ∧ w ∈ controlWords e.constant.abs.tex.toList := by
  rw [tex, Script.laurent, controlWords_sum, List.flatMap_append, List.mem_append,
    List.flatMap_map, List.mem_flatMap]
  apply or_congr_right
  cases e.constant.isZero <;> simp [Script.signedRatio, Script.tex]

theorem Normal.mem_symbols (normal : e.Normal) {m : Monomial} (term : m ∈ e.terms) {p : Power}
    (power : p ∈ m.powers) : p.symbol ∈ e.symbols := by
  obtain ⟨m_normal, -, nonzero⟩ := normal.terms m term
  obtain ⟨degree, counts⟩ := (m_normal.mem_powers_iff p).mp power
  rw [mem_symbols_iff]
  refine ⟨m.exponents, ?_, degree.symm ▸ counts⟩
  rwa [normal.coeff_of_mem term]

/-- Every control word of a simplified expression is a command that was meant, if a sign stands
between the factors or no power runs into the next one. Without a sign, a power that runs into the
next one makes a control word of both. -/
theorem tex_controlWords (style : TexStyle) (e : Laurent) (simplified : e.normalize = e)
    (names : ∀ s ∈ e.symbols, IsName s) (sign : IsName style.multiplication) :
    (style.explicit = true ∨ e.KeepsApart style.greek →
      ∀ w ∈ controlWords (e.tex style).toList, w = "frac" ∨ w = style.multiplication ∨
        w ∈ e.symbols ∧ style.greek.contains w = true) ∧
    (style.explicit = false → ∀ m ∈ e.terms, ∀ p q, [p, q] <:+: m.powers →
      p.RunsInto style.greek q →
        ∃ more, p.symbol ++ (q.symbol ++ more) ∈ controlWords (e.tex style).toList) := by
  have normal : e.Normal := simplified ▸ e.normalize_normal
  constructor
  · intro apart w member
    obtain ⟨m, term, inTerm⟩ | ⟨-, inConstant⟩ := mem_controlWords_tex_iff.mp member
    · have named : ∀ p ∈ m.powers, IsName p.symbol :=
        fun p power => names _ (normal.mem_symbols term power)
      have keeps := apart.imp_right fun keeps => keeps m term
      cases Monomial.meant_of_mem named sign keeps inTerm with
      | fraction => exact .inl rfl
      | multiplication => exact .inr (.inl rfl)
      | symbol power listed => exact .inr (.inr ⟨normal.mem_symbols term power, listed⟩)
    · exact .inl (Ratio.mem_controlWords_tex inConstant)
  · intro juxtaposed m term p q next runs
    obtain ⟨more, inTerm⟩ := Monomial.exists_controlWord_of_runsInto
      (fun p power => names _ (normal.mem_symbols term power)) juxtaposed next runs
    exact ⟨more, mem_controlWords_tex_iff.mpr (.inl ⟨m, term, inTerm⟩)⟩

/-- Alpha squared times x, and half of alpha times beta. -/
def angles : Laurent where
  terms := [⟨.one, [⟨"alpha", 2⟩, ⟨"x", 1⟩]⟩, ⟨.ofRat (1 / 2), [⟨"alpha", 1⟩, ⟨"beta", 1⟩]⟩]
  constant := .zero

/-- Alpha times x. -/
def angleTimesSide : Laurent := ⟨[⟨.one, [⟨"alpha", 1⟩, ⟨"x", 1⟩]⟩], .zero⟩

theorem tex_controlWords_of_angles :
    (∀ w ∈ controlWords (angles.tex .standard).toList,
      w = "frac" ∨ w = "cdot" ∨ w ∈ angles.symbols ∧ TexStyle.standard.greek.contains w = true) ∧
    ∃ more, "alpha" ++ ("x" ++ more) ∈ controlWords (angleTimesSide.tex .standard).toList :=
  ⟨(tex_controlWords .standard angles (by decide +kernel) (by decide +kernel)
      (by decide +kernel)).1 (.inr (by decide +kernel)),
    (tex_controlWords .standard angleTimesSide (by decide +kernel) (by decide +kernel)
      (by decide +kernel)).2 rfl _ List.mem_cons_self ⟨"alpha", 1⟩ ⟨"x", 1⟩ List.infix_rfl
      (by decide +kernel)⟩

/-- The product reads as one command that nobody meant. -/
theorem tex_unknown_command : angleTimesSide.normalize = angleTimesSide ∧
    (∀ s ∈ angleTimesSide.symbols, IsName s) ∧
    "alphax" ∈ controlWords (angleTimesSide.tex .standard).toList ∧
    "alphax" ≠ "frac" ∧ "alphax" ≠ TexStyle.standard.multiplication ∧
    "alphax" ∉ angleTimesSide.symbols := by
  decide +kernel

end Laurent

end ExactAlgebra
