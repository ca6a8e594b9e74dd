/-!
Whole numbers in decimal. They are written with ASCII digits. They are read from the decimal
digits of any script, with single underscores between digits, a sign before them and blanks around.
-/

namespace RegexMachine.Text

def decimal (value : Int) : List Char :=
  match value with
  | .ofNat size => Nat.toDigits 10 size
  | .negSucc size => '-' :: Nat.toDigits 10 (size + 1)

theorem of_list_decimal (value : Int) : String.ofList (decimal value) = toString value := by
  cases value with
  | ofNat size => rfl
  | negSucc size => exact String.ofList_cons

/-- The number of a place, at least two digits wide. -/
def twoPlaces (value : Nat) : List Char :=
  let digits := Nat.toDigits 10 value
  List.replicate (2 - digits.length) '0' ++ digits

theorem of_list_two_places (value : Nat) :
    String.ofList (twoPlaces value) = (if value < 10 then "0" else "") ++ toString value := by
  have digits : toString value = String.ofList (Nat.toDigits 10 value) := rfl
  rw [twoPlaces, String.ofList_append, digits]
  split
  · next single =>
      rw [Nat.toDigits_of_lt_base single]
      rfl
  · next more =>
      have positive : 0 < (Nat.toDigits 10 (value / 10)).length := Nat.length_toDigits_pos
      have filled : 2 - (Nat.toDigits 10 value).length = 0 := by
        rw [Nat.toDigits_of_base_le (by decide) (Nat.le_of_not_lt more), List.length_append,
          List.length_singleton]
        omega
      rw [filled]
      rfl

/-- The digits zero of all scripts; each is followed by the other nine of its script. -/
def zeroDigits : List Nat :=
  [0x30, 0x660, 0x6f0, 0x7c0, 0x966, 0x9e6, 0xa66, 0xae6, 0xb66, 0xbe6, 0xc66, 0xce6, 0xd66,
    0xde6, 0xe50, 0xed0, 0xf20, 0x1040, 0x1090, 0x17e0, 0x1810, 0x1946, 0x19d0, 0x1a80, 0x1a90,
    0x1b50, 0x1bb0, 0x1c40, 0x1c50, 0xa620, 0xa8d0, 0xa900, 0xa9d0, 0xa9f0, 0xaa50, 0xabf0,
    0xff10, 0x104a0, 0x10d30, 0x11066, 0x110f0, 0x11136, 0x111d0, 0x112f0, 0x11450, 0x114d0,
    0x11650, 0x116c0, 0x11730, 0x118e0, 0x11950, 0x11c50, 0x11d50, 0x11da0, 0x16a60, 0x16ac0,
    0x16b50, 0x1d7ce, 0x1d7d8, 0x1d7e2, 0x1d7ec, 0x1d7f6, 0x1e140, 0x1e2f0, 0x1e950, 0x1fbf0]

def digitValue? (c : Char) : Option Nat :=
  (zeroDigits.find? fun first => first ≤ c.toNat ∧ c.toNat < first + 10).map (c.toNat - ·)

def isDigit (c : Char) : Bool := (digitValue? c).isSome

def isBlank (c : Char) : Bool :=
  c.toNat ∈ [0x9, 0xa, 0xb, 0xc, 0xd, 0x20, 0x85, 0xa0, 0x1680, 0x2000, 0x2001, 0x2002, 0x2003,
    0x2004, 0x2005, 0x2006, 0x2007, 0x2008, 0x2009, 0x200a, 0x2028, 0x2029, 0x202f, 0x205f, 0x3000]

/-- Digits after a digit; an underscore counts only before a digit. -/
def moreDigits? (value count : Nat) : List Char → Option (Nat × Nat)
  | [] => some (value, count)
  | '_' :: c :: rest => do
      let digit ← digitValue? c
      moreDigits? (10 * value + digit) (count + 1) rest
  | c :: rest => do
      let digit ← digitValue? c
      moreDigits? (10 * value + digit) (count + 1) rest

/-- A number without sign, of at most 4300 digits. -/
def natural? : List Char → Option Nat
  | [] => none
  | c :: rest => do
      let digit ← digitValue? c
      let (value, count) ← moreDigits? digit 1 rest
      if count ≤ 4300 then some value else none

def integer? (text : List Char) : Option Int :=
  let inner := ((text.dropWhile isBlank).reverse.dropWhile isBlank).reverse
  match inner with
  | '-' :: digits => (natural? digits).map fun value => -(value : Int)
  | '+' :: digits => (natural? digits).map Int.ofNat
  | digits => (natural? digits).map Int.ofNat

end RegexMachine.Text
