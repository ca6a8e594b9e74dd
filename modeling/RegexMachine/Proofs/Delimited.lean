import Mathlib.Algebra.Group.Nat.Defs
import RegexMachine.Text.Flag
import RegexMachine.Text.Numeral
import RegexMachine.Text.Quoted

/-!
# Written forms that end by themselves

A quoted text or a truth value can be told from whatever stands behind it: two texts that begin with
written values agree only if the values do, and then what stands behind them agrees too. The letter
behind a backslash says how many characters belong to the escape, and between the marks no character
is written as a mark would be. A number has no end of its own. It needs something behind it that
could not be a digit.
-/

namespace RegexMachine.Text

/-- A text that begins with a written value tells which value it is, and where it ends. -/
def Delimited {Value : Type} (write : Value → List Char) : Prop :=
  ∀ ⦃left right : Value⦄ ⦃rest other : List Char⦄,
    write left ++ rest = write right ++ other → left = right ∧ rest = other

theorem delimited_flag : Delimited flag := by
  intro left right rest other same
  cases left <;> cases right <;> simp_all [flag]

/-! ## Numbers -/

/-- Texts whose characters all pass a test end in front of one that fails. -/
theorem eq_of_stopped {passes : Char → Bool} {left right rest other : List Char} {stop : Char}
    (ofLeft : ∀ c ∈ left, passes c) (ofRight : ∀ c ∈ right, passes c) (stops : passes stop = false)
    (same : left ++ stop :: rest = right ++ stop :: other) : left = right ∧ rest = other := by
  induction left generalizing right with
  | nil =>
      cases right with
      | nil => exact ⟨rfl, (List.cons.inj same).2⟩
      | cons c right =>
          obtain ⟨rfl, -⟩ := List.cons.inj same
          rw [ofRight stop List.mem_cons_self] at stops
          contradiction
  | cons c left induction =>
      rw [List.forall_mem_cons] at ofLeft
      cases right with
      | nil =>
          obtain ⟨rfl, -⟩ := List.cons.inj same
          rw [ofLeft.1] at stops
          contradiction
      | cons d right =>
          rw [List.forall_mem_cons] at ofRight
          obtain ⟨rfl, sameRest⟩ := List.cons.inj same
          obtain ⟨rfl, behind⟩ := induction ofLeft.2 ofRight.2 sameRest
          exact ⟨rfl, behind⟩

def isNumeral (c : Char) : Bool := c.isDigit || c == '-'

theorem is_numeral_decimal (value : Int) : ∀ c ∈ decimal value, isNumeral c := by
  have digits : ∀ size : Nat, ∀ c ∈ Nat.toDigits 10 size, isNumeral c := by
    intro size c member
    rw [isNumeral, Nat.isDigit_of_mem_toDigits (by decide) (by decide) member, Bool.true_or]
  cases value with
  | ofNat size => exact digits size
  | negSucc size => exact List.forall_mem_cons.mpr ⟨rfl, digits (size + 1)⟩

theorem to_digits_injective : Function.Injective (Nat.toDigits 10) := by
  intro left right same
  rw [← @Nat.ofDigitChars_toDigits 10 left (by decide) (by decide), same,
    Nat.ofDigitChars_toDigits (by decide) (by decide)]

theorem unsigned_to_digits (size : Nat) : '-' ∉ Nat.toDigits 10 size := by
  intro member
  have digit := Nat.isDigit_of_mem_toDigits (by decide) (by decide) member
  contradiction

theorem decimal_injective : Function.Injective decimal := by
  intro left right same
  cases left with
  | ofNat left =>
      cases right with
      | ofNat right => exact congrArg Int.ofNat (to_digits_injective same)
      | negSucc right =>
          have unsigned : Nat.toDigits 10 left = '-' :: _ := same
          exact absurd (unsigned ▸ List.mem_cons_self) (unsigned_to_digits left)
  | negSucc left =>
      cases right with
      | ofNat right =>
          have unsigned : '-' :: _ = Nat.toDigits 10 right := same
          exact absurd (unsigned ▸ List.mem_cons_self) (unsigned_to_digits right)
      | negSucc right =>
          have sizes := to_digits_injective (List.cons.inj same).2
          exact congrArg Int.negSucc (Nat.succ.inj sizes)

/-- A number ends in front of a character that no number is written with. -/
theorem eq_of_decimal {left right : Int} {rest other : List Char} (stop : Char)
    (stops : isNumeral stop = false)
    (same : decimal left ++ stop :: rest = decimal right ++ stop :: other) :
    left = right ∧ rest = other := by
  obtain ⟨digits, behind⟩ :=
    eq_of_stopped (is_numeral_decimal left) (is_numeral_decimal right) stops same
  exact ⟨decimal_injective digits, behind⟩

/-! ## Escapes -/

theorem digit_char_injective : ∀ left < 16, ∀ right < 16,
    Nat.digitChar left = Nat.digitChar right → left = right := by
  decide

theorem hex_digits_injective {width left right : Nat} (ofLeft : left < 16 ^ width)
    (ofRight : right < 16 ^ width) (same : hexDigits width left = hexDigits width right) :
    left = right := by
  induction width generalizing left right with
  | zero => omega
  | succ width induction =>
      obtain ⟨high, low⟩ := List.append_inj' same rfl
      have highs := induction (by omega) (by omega) high
      have lows := digit_char_injective (left % 16) (Nat.mod_lt _ (by decide)) (right % 16)
        (Nat.mod_lt _ (by decide)) (List.cons.inj low).1
      omega

def shortEscapes (mark : Char) : List (Char × Char) :=
  [('\\', '\\'), (mark, mark), ('n', '\n'), ('r', '\r'), ('t', '\t')]

/-- The letters that announce a code point, each with the number of its digits. -/
def codePointWidths : List (Char × Nat) := [('x', 2), ('u', 4), ('U', 8)]

inductive Escaped (mark c : Char) : List Char → Prop
  | plain (noEscape : c ≠ '\\') (noMark : c ≠ mark) : Escaped mark c [c]
  | short {letter} (known : (letter, c) ∈ shortEscapes mark) : Escaped mark c ['\\', letter]
  | codePoint {letter width} (known : (letter, width) ∈ codePointWidths)
      (fits : c.toNat < 16 ^ width) :
      Escaped mark c ('\\' :: letter :: hexDigits width c.toNat)

theorem escaped_code_point (mark c : Char) : Escaped mark c (codePoint c) := by
  unfold codePoint
  split
  · next fits =>
      have fits : c.toNat < 16 ^ 2 := fits
      exact .codePoint (by decide) fits
  · split
    · next fits => exact .codePoint (by decide) fits
    · exact .codePoint (by decide) c.val.toNat_lt

theorem escaped_escaped (mark c : Char) : Escaped mark c (escaped mark c) := by
  unfold escaped
  split
  · next special =>
      rcases special with rfl | rfl
      · exact .short (by simp [shortEscapes])
      · exact .short (by simp [shortEscapes])
  · next usual =>
      rw [not_or] at usual
      split
      · next newline => exact .short (by simp [shortEscapes, newline])
      · split
        · next returns => exact .short (by simp [shortEscapes, returns])
        · split
          · next tab => exact .short (by simp [shortEscapes, tab])
          · split
            · exact .plain usual.1 usual.2
            · exact escaped_code_point mark c

def IsMark (mark : Char) : Prop := mark = '\'' ∨ mark = '"'

theorem short_escapes_unique {mark : Char} (isMark : IsMark mark) :
    ∀ left ∈ shortEscapes mark, ∀ right ∈ shortEscapes mark, left.1 = right.1 → left.2 = right.2 := by
  rcases isMark with rfl | rfl
  · decide
  · decide

theorem code_point_widths_unique :
    ∀ left ∈ codePointWidths, ∀ right ∈ codePointWidths, left.1 = right.1 → left.2 = right.2 := by
  decide

theorem short_escapes_apart {mark : Char} (isMark : IsMark mark) :
    ∀ short ∈ shortEscapes mark, ∀ wide ∈ codePointWidths, short.1 ≠ wide.1 := by
  rcases isMark with rfl | rfl
  · decide
  · decide

/-- An escape shows which character it stands for and where it ends. -/
theorem eq_of_escaped {mark left right : Char} {written text rest other : List Char}
    (isMark : IsMark mark) (ofLeft : Escaped mark left written) (ofRight : Escaped mark right text)
    (same : written ++ rest = text ++ other) : left = right ∧ rest = other := by
  cases ofLeft with
  | plain noEscape noMark =>
      cases ofRight with
      | plain noEscape' noMark' => exact List.cons.inj same
      | short known => exact absurd (List.cons.inj same).1 noEscape
      | codePoint known fits => exact absurd (List.cons.inj same).1 noEscape
  | short known =>
      cases ofRight with
      | plain noEscape noMark => exact absurd (List.cons.inj same).1.symm noEscape
      | short known' =>
          obtain ⟨rfl, behind⟩ := List.cons.inj (List.cons.inj same).2
          exact ⟨short_escapes_unique isMark _ known _ known' rfl, behind⟩
      | codePoint known' fits =>
          obtain ⟨rfl, -⟩ := List.cons.inj (List.cons.inj same).2
          exact absurd rfl (short_escapes_apart isMark _ known _ known')
  | codePoint known fits =>
      cases ofRight with
      | plain noEscape noMark => exact absurd (List.cons.inj same).1.symm noEscape
      | short known' =>
          obtain ⟨rfl, -⟩ := List.cons.inj (List.cons.inj same).2
          exact absurd rfl (short_escapes_apart isMark _ known' _ known)
      | codePoint known' fits' =>
          obtain ⟨rfl, behind⟩ := List.cons.inj (List.cons.inj same).2
          obtain rfl := code_point_widths_unique _ known _ known' rfl
          obtain ⟨digits, ends⟩ := List.append_inj behind (by simp only [length_hex_digits])
          exact ⟨Char.toNat_inj.mp (hex_digits_injective fits fits' digits), ends⟩

/-! ## Quoted texts -/

/-- No character is written as the mark is that ends the text. -/
theorem escaped_ne_mark {mark c : Char} {written rest other : List Char} (isMark : IsMark mark)
    (ofChar : Escaped mark c written) : written ++ rest ≠ mark :: other := by
  intro same
  have noEscape : '\\' ≠ mark := by rcases isMark with rfl | rfl <;> decide
  cases ofChar with
  | plain _ noMark => exact noMark (List.cons.inj same).1
  | short known => exact noEscape (List.cons.inj same).1
  | codePoint known fits => exact noEscape (List.cons.inj same).1

theorem eq_of_enclosed {mark : Char} (isMark : IsMark mark) {left right rest other : List Char}
    (same : left.flatMap (escaped mark) ++ mark :: rest =
      right.flatMap (escaped mark) ++ mark :: other) : left = right ∧ rest = other := by
  induction left generalizing right with
  | nil =>
      cases right with
      | nil => exact ⟨rfl, (List.cons.inj same).2⟩
      | cons d right =>
          rw [List.flatMap_cons, List.append_assoc] at same
          exact absurd same.symm (escaped_ne_mark isMark (escaped_escaped mark d))
  | cons c left induction =>
      rw [List.flatMap_cons, List.append_assoc] at same
      cases right with
      | nil => exact absurd same (escaped_ne_mark isMark (escaped_escaped mark c))
      | cons d right =>
          rw [List.flatMap_cons, List.append_assoc] at same
          obtain ⟨rfl, behind⟩ :=
            eq_of_escaped isMark (escaped_escaped mark c) (escaped_escaped mark d) same
          obtain ⟨rfl, ends⟩ := induction behind
          exact ⟨rfl, ends⟩

theorem is_mark_enclosing_mark (text : List Char) : IsMark (enclosingMark text) := by
  unfold enclosingMark
  split
  · exact .inr rfl
  · exact .inl rfl

theorem delimited_quoted : Delimited quoted := by
  intro left right rest other same
  simp only [quoted, List.cons_append, List.append_assoc] at same
  obtain ⟨marks, enclosed⟩ := List.cons.inj same
  rw [← marks] at enclosed
  exact eq_of_enclosed (is_mark_enclosing_mark left) enclosed

end RegexMachine.Text
