import RegexMachine.Limits
import RegexMachine.Machine.State

/-!
An attempt runs a program from one offset of a text, and counts its steps. It ends with a match,
without one, by asking for a character before the text, or by the step limit.

Without a limit the machine is run in bursts, each twice as long as the one before. Their number is
such that no attempt which ends by itself takes longer than all of them together.
-/

namespace RegexMachine.Machine

inductive Progress
  | running (steps : Nat) (state : State)
  | halted (steps : Nat) (halt : Halt)
deriving DecidableEq, Repr

/-- Makes at most `budget` steps. -/
def run (instructions : Array Instruction) (text : Array Char) :
    (budget : Nat) → (steps : Nat) → State → Progress
  | 0, steps, state => .running steps state
  | budget + 1, steps, state =>
      match step instructions text state with
      | .running next => run instructions text budget (steps + 1) next
      | .halted halt => .halted (steps + 1) halt

def Progress.advance (instructions : Array Instruction) (text : Array Char) (budget : Nat) :
    Progress → Progress
  | .running steps state => run instructions text budget steps state
  | .halted steps halt => .halted steps halt

theorem run_add (instructions : Array Instruction) (text : Array Char)
    (first second steps : Nat) (state : State) :
    run instructions text (first + second) steps state =
      (run instructions text first steps state).advance instructions text second := by
  induction first generalizing steps state with
  | zero => simp [run, Progress.advance]
  | succ first induction =>
      rw [Nat.succ_add]
      simp only [run]
      cases step instructions text state with
      | running next => exact induction (steps + 1) next
      | halted halt => rfl

theorem advance_add (instructions : Array Instruction) (text : Array Char)
    (first second : Nat) (progress : Progress) :
    progress.advance instructions text (first + second) =
      (progress.advance instructions text first).advance instructions text second := by
  cases progress with
  | running steps state => exact run_add instructions text first second steps state
  | halted steps halt => rfl

def burst (instructions : Array Instruction) (text : Array Char) :
    (exponent : Nat) → Progress → Progress
  | 0, progress => progress.advance instructions text 1
  | exponent + 1, .running steps state =>
      burst instructions text exponent
        (burst instructions text exponent (.running steps state))
  | _ + 1, .halted steps halt => .halted steps halt

/-- Makes `count` bursts, the first of `2 ^ exponent` steps. -/
def bursts (instructions : Array Instruction) (text : Array Char) :
    (count : Nat) → (exponent : Nat) → Progress → Progress
  | 0, _, progress => progress
  | count + 1, exponent, .running steps state =>
      bursts instructions text count (exponent + 1)
        (burst instructions text exponent (.running steps state))
  | _ + 1, _, .halted steps halt => .halted steps halt

/-- The places at which a path from `start` can be: an instruction and an offset. -/
def placeCount (instructions : Array Instruction) (text : Array Char) (start : Int) : Nat :=
  instructions.size * ((text.size - start).toNat + 1)

inductive Outcome
  | found (spans : List Span) (steps : Nat)
  | missed (steps : Nat)
  | offText (position : Int)
  /-- The step limit was reached. -/
  | cut (steps : Nat)
deriving DecidableEq, Repr

def Progress.outcome (start : Int) : Progress → Outcome
  | .running steps _ => .cut steps
  | .halted steps (.matched stop captures) => .found (⟨start, stop⟩ :: captures.toList) steps
  | .halted _ (.offText position) => .offText position
  | .halted steps .exhausted | .halted steps .strayed | .halted steps .unopened => .missed steps

def attempt (maxSteps : Option Nat) (instructions : Array Instruction) (text : Array Char)
    (start : Int) : Outcome :=
  let state : State := { position := start }
  let progress :=
    match maxSteps with
    | some budget => run instructions text budget 0 state
    | none =>
        let places := placeCount instructions text start
        bursts instructions text (places * places + 1) 0 (.running 0 state)
  progress.outcome start

end RegexMachine.Machine
