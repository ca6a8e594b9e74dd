import RegexMachine.Machine.Attempt

/-!
A search makes one attempt at each offset of a text, from the left, until one of them does not
miss. The offset behind the last character is not tried, so nothing is found in an empty text.
-/

namespace RegexMachine.Machine

inductive SearchOutcome
  /-- The steps are those of all attempts. -/
  | found (start : Nat) (spans : List Span) (steps : Nat)
  | absent (steps : Nat)
  | offText (position : Int)
  /-- The steps are those of the attempt that was cut off. -/
  | cut (start : Nat) (steps : Nat)
deriving DecidableEq, Repr

/-- Tries the last `left` offsets, after attempts of `total` steps. -/
def searchLast (maxSteps : Option Nat) (instructions : Array Instruction) (text : Array Char) :
    (left : Nat) → (total : Nat) → SearchOutcome
  | 0, total => .absent total
  | left + 1, total =>
      let start := text.size - (left + 1)
      match attempt maxSteps instructions text start with
      | .found spans steps => .found start spans (total + steps)
      | .missed steps => searchLast maxSteps instructions text left (total + steps)
      | .offText position => .offText position
      | .cut steps => .cut start steps

def search (maxSteps : Option Nat) (instructions : Array Instruction) (text : Array Char) :
    SearchOutcome :=
  searchLast maxSteps instructions text text.size 0

end RegexMachine.Machine
