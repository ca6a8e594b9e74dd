import RegexMachine.Machine.State

/-!
What a match reports: the span of the whole match, then those of its groups in the order of
closing, and the number of steps it took to find them. The texts of spans are slices.
-/

namespace RegexMachine

open RegexMachine.Indexing

structure Match where
  text : Array Char
  spans : Array Span
  steps : Nat := 0
deriving DecidableEq, Repr

namespace Match

def span (result : Match) (index : Int) : Except IndexError Span :=
  item .spans result.spans index

def textOf (result : Match) (span : Span) : List Char :=
  (slice result.text span.start span.stop).toList

def group (result : Match) (index : Int) : Except IndexError (List Char) :=
  (result.span index).map result.textOf

def groups (result : Match) : List (List Char) :=
  (result.spans.toList.drop 1).map result.textOf

end Match

end RegexMachine
