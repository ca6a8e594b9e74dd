/-!
Positions in a sequence. An index below zero counts from the end, so a sequence of `size` items
answers the indices from `-size` to `size - 1` and no others. A slice has no such failure: its
bounds are brought into the sequence first.
-/

namespace RegexMachine.Indexing

def resolve (size : Nat) (index : Int) : Option Nat :=
  if 0 ≤ index then
    if index < size then some index.toNat else none
  else if -(size : Int) ≤ index then
    some (index + size).toNat
  else
    none

/-- The bound of a slice, counted from the end when it is below zero and never outside. -/
def bound (size : Nat) (position : Int) : Nat :=
  if position < 0 then (position + size).toNat else min position.toNat size

/-- The items from `start` up to, and without, `stop`. -/
def slice {Item : Type} (items : Array Item) (start stop : Int) : Array Item :=
  items.extract (bound items.size start) (bound items.size stop)

def item? {Item : Type} (items : Array Item) (index : Int) : Option Item :=
  (resolve items.size index).bind (items[·]?)

inductive Sequence
  | text
  | spans
  | instructions
deriving DecidableEq, Repr

inductive IndexError
  | outOfRange (sequence : Sequence)
  /-- The index is no signed number of 64 bits. -/
  | unaddressable
deriving DecidableEq, Repr

def IndexError.message : IndexError → String
  | .outOfRange .text => "string index out of range"
  | .outOfRange .spans => "list index out of range"
  | .outOfRange .instructions => "tuple index out of range"
  | .unaddressable => "cannot fit 'int' into an index-sized integer"

def isAddressable (index : Int) : Bool :=
  -9223372036854775808 ≤ index && index < 9223372036854775808

def IndexError.of (sequence : Sequence) (index : Int) : IndexError :=
  if isAddressable index then .outOfRange sequence else .unaddressable

def item {Item : Type} (sequence : Sequence) (items : Array Item) (index : Int) :
    Except IndexError Item :=
  match item? items index with
  | some item => .ok item
  | none => .error (.of sequence index)

theorem item_nat_cast {Item : Type} (items : Array Item) (position : Nat) :
    item? items position = items[position]? := by
  by_cases inside : position < items.size
  · simp [item?, resolve, inside]
  · simp [item?, resolve, inside]

end RegexMachine.Indexing
