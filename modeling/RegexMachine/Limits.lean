/-!
What a reading and a run may use: how deep groups may be nested, and how many instructions one
attempt may execute. Without a step limit an attempt goes on until it ends by itself.
-/

namespace RegexMachine

structure Limits where
  maxSteps : Option Nat := some 1000000
  maxDepth : Nat := 100
  maxDepth_pos : 0 < maxDepth := by decide
deriving DecidableEq

def Limits.standard : Limits := {}

inductive LimitError
  | negativeSteps
  | noDepth
deriving DecidableEq, Repr

def LimitError.message : LimitError → String
  | .negativeSteps => "max_steps must be non-negative"
  | .noDepth => "max_depth must be at least 1"

/-- Limits from plain numbers. The step limit is looked at first. -/
def Limits.make (maxSteps : Option Int) (maxDepth : Int) : Except LimitError Limits :=
  if maxSteps.any (· < 0) then
    .error .negativeSteps
  else if positive : 0 < maxDepth.toNat then
    .ok ⟨maxSteps.map Int.toNat, maxDepth.toNat, positive⟩
  else
    .error .noDepth

end RegexMachine
