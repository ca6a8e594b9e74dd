import RegexMachine.Indexing
import RegexMachine.Pattern.Printer
import RegexMachine.Program.Instruction

/-!
A program is a sequence of instructions whose targets are places in the sequence. It is well formed
when it ends with `finish` and no target lies outside; nothing else is asked of it.
-/

namespace RegexMachine

inductive CompileError
  | noAlternatives
  | noFactors
  | reversedRange (least most : Int)
  | unknownNode (tree : Tree)
  | unfinished
  | strayTarget (place : Nat) (instruction : Instruction) (target : Int) (size : Nat)
deriving DecidableEq

open RegexMachine.Text in
def CompileError.message : CompileError → String
  | noAlternatives => "Branch node has no alternatives"
  | noFactors => "Connect node has no factors"
  | reversedRange least most =>
      "invalid repeat range \x7b" ++ String.ofList (decimal least) ++ "," ++ String.ofList (decimal most) ++
        "\x7d: min is greater than max"
  | unknownNode tree => "cannot compile node " ++ String.ofList tree.render
  | unfinished => "program must end with a Finish instruction"
  | strayTarget place instruction target size =>
      "instruction " ++ String.ofList (twoPlaces place) ++ " (" ++ String.ofList instruction.render ++
        ") targets " ++ String.ofList (decimal target) ++ ", outside the program of " ++
        String.ofList (decimal size) ++ " instructions"

structure Program where
  instructions : Array Instruction
  /-- How many groups the pattern has. -/
  groups : Nat := 0
  /-- The pattern that the program was made from, if it is known. -/
  source : List Char := []
deriving DecidableEq

namespace Program

open RegexMachine.Text

def size (program : Program) : Nat := program.instructions.size

def instruction (program : Program) (index : Int) : Except Indexing.IndexError Instruction :=
  Indexing.item .instructions program.instructions index

/-- The first target outside the `size` places, among instructions that begin at `place`. -/
def firstStray? (size : Nat) : (place : Nat) → List Instruction → Option CompileError
  | _, [] => none
  | place, instruction :: rest =>
      match instruction.targets.find? fun target : Int => ¬ (0 ≤ target ∧ target < size) with
      | some target => some (.strayTarget place instruction target size)
      | none => firstStray? size (place + 1) rest

def validate (program : Program) : Except CompileError Unit :=
  if program.instructions.back? = some .finish then
    match firstStray? program.size 0 program.instructions.toList with
    | some error => .error error
    | none => .ok ()
  else
    .error .unfinished

def line (place : Nat) (instruction : Instruction) : List Char :=
  twoPlaces place ++ ": ".toList ++ instruction.render

def listing (program : Program) : List (List Char) :=
  program.instructions.toList.zipIdx.map fun entry => line entry.2 entry.1

def render (program : Program) : List Char :=
  ['\n'].intercalate program.listing

end Program

end RegexMachine
