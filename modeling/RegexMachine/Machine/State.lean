import RegexMachine.Program.Basic

/-!
One step of the machine. It runs one path of a program at a time. A fork leaves a checkpoint for
its second target; when a test fails, the machine goes back to the newest checkpoint.

A checkpoint keeps the groups that were open, but only the number of the groups that were closed:
closed groups are appended to one array, which going back makes shorter again.
-/

namespace RegexMachine

/-- The characters from `start` up to `stop`. -/
structure Span where
  start : Int
  stop : Int
deriving DecidableEq, Repr, Inhabited

namespace Machine

structure Checkpoint where
  resume : Int
  position : Int
  opened : List Int
  captured : Nat
deriving DecidableEq, Repr

structure State where
  pc : Int := 0
  position : Int
  /-- Where the open groups began, the innermost first. -/
  opened : List Int := []
  /-- The groups closed on the current path, in the order of closing. -/
  closed : Array Span := #[]
  /-- What may still be tried, the newest first. -/
  checkpoints : List Checkpoint := []
deriving DecidableEq, Repr

inductive Halt
  | matched (stop : Int) (captures : Array Span)
  /-- A test failed and no checkpoint was left. -/
  | exhausted
  /-- Control left the program. -/
  | strayed
  /-- A group was to be closed and none was open. -/
  | unopened
  /-- The character asked for lies before the text. -/
  | offText (position : Int)
deriving DecidableEq, Repr

inductive Turn
  | running (state : State)
  | halted (halt : Halt)
deriving DecidableEq, Repr

namespace State

def advance (state : State) : State := { state with pc := state.pc + 1 }

def jump (state : State) (target : Int) : State := { state with pc := target }

def backtrack (state : State) : Turn :=
  match state.checkpoints with
  | [] => .halted .exhausted
  | checkpoint :: older =>
      .running
        { pc := checkpoint.resume
          position := checkpoint.position
          opened := checkpoint.opened
          closed := state.closed.shrink checkpoint.captured
          checkpoints := older }

/-- Leaves a checkpoint that resumes at `second`, and continues at `first`. -/
def fork (state : State) (first second : Int) : State :=
  { state with
    pc := first
    checkpoints := ⟨second, state.position, state.opened, state.closed.size⟩ :: state.checkpoints }

/-- Takes a character that passes the test. A position below zero counts from the end. -/
def takeChar (text : Array Char) (state : State) (test : CharTest) : Turn :=
  if state.position < text.size then
    match Indexing.item? text state.position with
    | none => .halted (.offText state.position)
    | some c =>
        if test.accepts c then
          .running { state with pc := state.pc + 1, position := state.position + 1 }
        else
          state.backtrack
  else
    state.backtrack

def atAnchor (text : Array Char) (state : State) : Anchor → Bool
  | .front => state.position == 0
  | .back => state.position == text.size

def openGroup (state : State) : State :=
  { state with pc := state.pc + 1, opened := state.position :: state.opened }

def closeGroup (state : State) : Turn :=
  match state.opened with
  | [] => .halted .unopened
  | start :: opened =>
      .running
        { state with
          pc := state.pc + 1
          opened
          closed := state.closed.push ⟨start, state.position⟩ }

def execute (text : Array Char) (state : State) : Instruction → Turn
  | .char test => state.takeChar text test
  | .jump target => .running (state.jump target)
  | .fork first second => .running (state.fork first second)
  | .anchor place => if state.atAnchor text place then .running state.advance else state.backtrack
  | .openGroup => .running state.openGroup
  | .closeGroup => state.closeGroup
  | .finish => .halted (.matched state.position state.closed)

end State

/-- The instruction at a place; there is none before the first and after the last. -/
def fetch (instructions : Array Instruction) (pc : Int) : Option Instruction :=
  if pc < 0 then none else instructions[pc.toNat]?

def step (instructions : Array Instruction) (text : Array Char) (state : State) : Turn :=
  match fetch instructions state.pc with
  | some instruction => state.execute text instruction
  | none => .halted .strayed

end Machine

end RegexMachine
