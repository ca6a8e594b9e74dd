import RegexMachine.Program.CharTest
import RegexMachine.Text.Numeral

/-!
The instructions of a program. Only jumps and forks name other instructions; a fork is to be
continued at its first target, and at its second if that fails.
-/

namespace RegexMachine

inductive Anchor
  | front
  | back
deriving DecidableEq, Repr

inductive Instruction
  /-- Takes a character that passes the test. -/
  | char (test : CharTest)
  | jump (target : Int)
  | fork (first second : Int)
  /-- Goes on only at one end of the text. -/
  | anchor (place : Anchor)
  | openGroup
  /-- Closes the group that was opened last. -/
  | closeGroup
  | finish
deriving DecidableEq

namespace Instruction

open RegexMachine.Text

def targets : Instruction → List Int
  | jump target => [target]
  | fork first second => [first, second]
  | char _ | anchor _ | openGroup | closeGroup | finish => []

def relocate (offset : Int) : Instruction → Instruction
  | jump target => jump (target + offset)
  | fork first second => fork (first + offset) (second + offset)
  | instruction => instruction

theorem targets_relocate (offset : Int) (instruction : Instruction) :
    (instruction.relocate offset).targets = instruction.targets.map (· + offset) := by
  cases instruction <;> rfl

theorem relocate_relocate (first second : Int) (instruction : Instruction) :
    (instruction.relocate first).relocate second = instruction.relocate (first + second) := by
  cases instruction <;> simp [relocate, Int.add_assoc]

def render : Instruction → List Char
  | char test => "MatchChar(".toList ++ test.render ++ ")".toList
  | jump target => "Jump(".toList ++ decimal target ++ ")".toList
  | fork first second =>
      "Branch(".toList ++ decimal first ++ ", ".toList ++ decimal second ++ ")".toList
  | anchor .front => "MatchPos(Front)".toList
  | anchor .back => "MatchPos(Back)".toList
  | openGroup => "GroupParenL".toList
  | closeGroup => "GroupParenR".toList
  | finish => "Finish".toList

end Instruction

end RegexMachine
