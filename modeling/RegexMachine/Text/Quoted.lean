import RegexMachine.Text.Printable

/-!
The quoted form of a text. It stands in single marks, or in double marks when the text holds a
single mark and no double one. Inside, the backslash and the enclosing mark are written after a
backslash, and a character that is not printable by its name or by its code point.
-/

namespace RegexMachine.Text

def hexDigits : (width : Nat) → (value : Nat) → List Char
  | 0, _ => []
  | width + 1, value => hexDigits width (value / 16) ++ [Nat.digitChar (value % 16)]

theorem length_hex_digits (width value : Nat) : (hexDigits width value).length = width := by
  induction width generalizing value with
  | zero => rfl
  | succ width induction => simp [hexDigits, induction]

/-- The code point of a character: two, four or eight digits, the first width that suffices. -/
def codePoint (c : Char) : List Char :=
  if c.toNat < 0x100 then
    '\\' :: 'x' :: hexDigits 2 c.toNat
  else if c.toNat < 0x10000 then
    '\\' :: 'u' :: hexDigits 4 c.toNat
  else
    '\\' :: 'U' :: hexDigits 8 c.toNat

def escaped (mark c : Char) : List Char :=
  if c = '\\' ∨ c = mark then ['\\', c]
  else if c = '\n' then ['\\', 'n']
  else if c = '\r' then ['\\', 'r']
  else if c = '\t' then ['\\', 't']
  else if isPrintable c then [c]
  else codePoint c

def enclosingMark (text : List Char) : Char :=
  if '\'' ∈ text ∧ '"' ∉ text then '"' else '\''

def quoted (text : List Char) : List Char :=
  let mark := enclosingMark text
  mark :: (text.flatMap (escaped mark) ++ [mark])

end RegexMachine.Text
