import RegexMachine.Fault
import RegexMachine.Machine.Search

/-!
The journal of the engine. Reading, compiling and searching leave an event when they succeed, and
an attempt leaves one when it reaches the step limit. The events of an outcome are read off the
outcome; a recorded value carries the events of its making, also when the value is a fault.
-/

namespace RegexMachine

open RegexMachine.Text RegexMachine.Machine RegexMachine.Pattern

inductive Severity
  | detail
  | warning
deriving DecidableEq, Repr

def Severity.name : Severity → String
  | .detail => "DEBUG"
  | .warning => "WARNING"

inductive Event
  | parsed (pattern : List Char) (nodes : Nat)
  /-- `subject` is the source or, where there is none, the written tree. -/
  | compiled (subject : List Char) (instructions : Nat)
  | matchedAt (start length steps : Nat)
  | notMatched (length steps : Nat)
  | cutOff (limit : Nat) (start : Int) (length : Nat)
deriving DecidableEq, Repr

namespace Event

def severity : Event → Severity
  | cutOff _ _ _ => .warning
  | _ => .detail

def origin : Event → String
  | parsed _ _ => "regvm.parser.parser"
  | compiled _ _ => "regvm.vm.builder"
  | matchedAt _ _ _ | notMatched _ _ | cutOff _ _ _ => "regvm.vm.interpreter"

def message : Event → String
  | parsed pattern nodes =>
      "parsed " ++ String.ofList (quoted pattern) ++ " into " ++ toString nodes ++ " nodes"
  | compiled subject instructions =>
      "compiled " ++ String.ofList subject ++ " into " ++ toString instructions ++ " instructions"
  | matchedAt start length steps =>
      "matched at offset " ++ toString start ++ " of " ++ toString length ++ " chars after " ++
        toString steps ++ " steps"
  | notMatched length steps =>
      "no match in " ++ toString length ++ " chars after " ++ toString steps ++ " steps"
  | cutOff limit start length =>
      "step limit of " ++ toString limit ++ " reached at offset " ++
        String.ofList (decimal start) ++ " of " ++ toString length ++ " chars"

def line (event : Event) : String := event.origin ++ ": " ++ event.message

def ofParse (pattern : List Char) : Except SyntaxError Tree → List Event
  | .ok tree => [parsed pattern tree.walk.length]
  | .error _ => []

def ofCompile (tree : Tree) (source : List Char) : Except CompileError Program → List Event
  | .ok program =>
      [compiled (if source.isEmpty then tree.render else quoted source) program.size]
  | .error _ => []

def ofAttempt (start : Int) (length : Nat) : Outcome → List Event
  | .cut steps => [cutOff steps start length]
  | .found _ _ | .missed _ | .offText _ => []

def ofSearch (length : Nat) : SearchOutcome → List Event
  | .found start _ steps => [matchedAt start length steps]
  | .absent steps => [notMatched length steps]
  | .cut start steps => [cutOff steps start length]
  | .offText _ => []

end Event

/-- A value with the events of its making, in order. -/
structure Recorded (Value : Type) where
  value : Value
  events : List Event := []

namespace Recorded

instance : Monad Recorded where
  pure value := ⟨value, []⟩
  bind recorded next :=
    let rest := next recorded.value
    ⟨rest.value, recorded.events ++ rest.events⟩

end Recorded

abbrev Job := ExceptT Fault Recorded

end RegexMachine
