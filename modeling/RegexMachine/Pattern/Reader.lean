import RegexMachine.Pattern.Scan

/-!
A reader keeps its place in a pattern, so that reading can go on behind an error. A group that was
open when an error arose stays open for the reader: the readings after it may nest less deeply.
-/

namespace RegexMachine.Pattern

structure Reader where
  pattern : List Char
  limits : Limits := .standard
  position : Nat := 0
  depth : Nat := 0

namespace Reader

/-- Reads what is left of the pattern. The position of an error counts from the beginning. -/
def read (reader : Reader) : Except SyntaxError Tree × Reader :=
  let rest := reader.pattern.drop reader.position
  let maxDepth := reader.limits.maxDepth
  match ({} : Scan).read maxDepth (maxDepth - reader.depth) 0 rest with
  | .ok tree => (.ok tree, { reader with position := reader.pattern.length })
  | .error failure =>
      (.error ⟨failure.error.cause, reader.position + failure.error.position⟩,
        { reader with
          position := reader.position + failure.consumed
          depth := reader.depth + failure.opened })

def readTimes (reader : Reader) : (times : Nat) → List (Except SyntaxError Tree × Reader)
  | 0 => []
  | times + 1 => reader.read :: reader.read.2.readTimes times

end Reader

end RegexMachine.Pattern
