import RegexMachine.Journal
import RegexMachine.Match
import RegexMachine.Program.Assembly

/-!
The engine as its users see it: patterns become trees, trees become programs, and programs search
texts under limits. Each job records its events.
-/

namespace RegexMachine.Engine

open RegexMachine.Machine

def record {Error Value : Type} (fault : Error → Fault) (result : Except Error Value)
    (events : List Event) : Job Value :=
  ExceptT.mk ⟨result.mapError fault, events⟩

def limits (maxSteps : Option Int) (maxDepth : Int) : Job Limits :=
  record .limits (Limits.make maxSteps maxDepth) []

def parse (limits : Limits) (pattern : List Char) : Job Tree :=
  let result := Pattern.parse limits pattern
  record .pattern result (Event.ofParse pattern result)

def compile (tree : Tree) (source : List Char := []) : Job Program :=
  let result := tree.compile source
  record .compile result (Event.ofCompile tree source result)

def compilePattern (limits : Limits) (pattern : List Char) : Job Program := do
  let tree ← parse limits pattern
  compile tree pattern

def matchOfAttempt (text : Array Char) : Outcome → Except Fault (Option Match)
  | .found spans steps => .ok (some ⟨text, spans.toArray, steps⟩)
  | .missed _ => .ok none
  | .offText position => .error (.index (.of .text position))
  | .cut steps => .error (.stepLimit steps)

def matchOfSearch (text : Array Char) : SearchOutcome → Except Fault (Option Match)
  | .found _ spans steps => .ok (some ⟨text, spans.toArray, steps⟩)
  | .absent _ => .ok none
  | .offText position => .error (.index (.of .text position))
  | .cut _ steps => .error (.stepLimit steps)

def matchAt (limits : Limits) (program : Program) (text : Array Char) (start : Int) :
    Job (Option Match) :=
  let outcome := attempt limits.maxSteps program.instructions text start
  record id (matchOfAttempt text outcome) (Event.ofAttempt start text.size outcome)

def search (limits : Limits) (program : Program) (text : Array Char) : Job (Option Match) :=
  let outcome := Machine.search limits.maxSteps program.instructions text
  record id (matchOfSearch text outcome) (Event.ofSearch text.size outcome)

/-- How alike two patterns are: as trees, as instructions, and as programs with their sources. -/
structure Comparison where
  trees : Bool
  instructions : Bool
  programs : Bool
deriving DecidableEq, Repr

def compare (left right : List Char) : Job Comparison := do
  let leftTree ← parse .standard left
  let rightTree ← parse .standard right
  let leftProgram ← compile leftTree left
  let rightProgram ← compile rightTree right
  return {
    trees := leftTree = rightTree
    instructions := leftProgram.instructions = rightProgram.instructions
    programs := leftProgram = rightProgram }

end RegexMachine.Engine
