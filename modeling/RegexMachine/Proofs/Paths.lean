import RegexMachine.Machine.Attempt

/-!
# The machine as a search of paths

A path has open groups and captures of its own. At a fork it becomes two paths, and exploring it
means to explore the first of them and, if that comes to nothing, the second. The machine keeps
one state for all paths: one array of captures, and a stack of checkpoints that know only how long
the array was. Here the two are shown to be the same search. A path explored in vain takes the
machine as many steps as it has places, and after them the machine does what it does after a
single failed test.
-/

namespace RegexMachine.Machine

structure Path where
  pc : Int := 0
  position : Int
  opened : List Int := []
  closed : Array Span := #[]
deriving DecidableEq, Repr

/-- What becomes of a path at its next instruction. A path on which a test fails is halted as
`exhausted`. -/
inductive Fate
  | halts (halt : Halt)
  | goes (next : Path)
  | forks (first second : Path)
deriving DecidableEq, Repr

namespace Path

def take (text : Array Char) (path : Path) (test : CharTest) : Fate :=
  if path.position < text.size then
    match Indexing.item? text path.position with
    | none => .halts (.offText path.position)
    | some c =>
        if test.accepts c then
          .goes { path with pc := path.pc + 1, position := path.position + 1 }
        else
          .halts .exhausted
  else
    .halts .exhausted

def atAnchor (text : Array Char) (path : Path) : Anchor → Bool
  | .front => path.position == 0
  | .back => path.position == text.size

def close (path : Path) : Fate :=
  match path.opened with
  | [] => .halts .unopened
  | start :: opened =>
      .goes { path with
        pc := path.pc + 1
        opened
        closed := path.closed.push ⟨start, path.position⟩ }

def meet (text : Array Char) (path : Path) : Instruction → Fate
  | .char test => path.take text test
  | .jump target => .goes { path with pc := target }
  | .fork first second => .forks { path with pc := first } { path with pc := second }
  | .anchor place =>
      if path.atAnchor text place then .goes { path with pc := path.pc + 1 } else .halts .exhausted
  | .openGroup => .goes { path with pc := path.pc + 1, opened := path.position :: path.opened }
  | .closeGroup => path.close
  | .finish => .halts (.matched path.position path.closed)

def fate (instructions : Array Instruction) (text : Array Char) (path : Path) : Fate :=
  match fetch instructions path.pc with
  | some instruction => path.meet text instruction
  | none => .halts .strayed

/-- The machine on this path, with `checkpoints` for the paths that wait. -/
def state (path : Path) (checkpoints : List Checkpoint) : State :=
  { pc := path.pc
    position := path.position
    opened := path.opened
    closed := path.closed
    checkpoints }

def checkpoint (path : Path) : Checkpoint :=
  ⟨path.pc, path.position, path.opened, path.closed.size⟩

end Path

theorem fetch_eq_some_iff {instructions : Array Instruction} {pc : Int} {instruction : Instruction} :
    fetch instructions pc = some instruction ↔
      0 ≤ pc ∧ instructions[pc.toNat]? = some instruction := by
  unfold fetch
  split
  · next negative => simp [Int.not_le.mpr negative]
  · next nonnegative => simp [Int.not_lt.mp nonnegative]

theorem fetch_nat_cast (instructions : Array Instruction) (place : Nat) :
    fetch instructions (place : Int) = instructions[place]? := by
  rw [fetch, if_neg (by omega), Int.toNat_natCast]

theorem fetch_ne_none_iff {instructions : Array Instruction} {pc : Int} :
    fetch instructions pc ≠ none ↔ 0 ≤ pc ∧ pc < instructions.size := by
  unfold fetch
  split
  · next negative => simp [Int.not_le.mpr negative]
  · next nonnegative => simp [Int.not_lt.mp nonnegative, Int.toNat_lt]

/-- All that an instruction can do to a path, and when. -/
inductive Meets (text : Array Char) (path : Path) : Instruction → Fate → Prop
  | taken {test c} (before : path.position < text.size)
      (read : Indexing.item? text path.position = some c) (accepted : test.accepts c = true) :
      Meets text path (.char test)
        (.goes { path with pc := path.pc + 1, position := path.position + 1 })
  | refused {test c} (before : path.position < text.size)
      (read : Indexing.item? text path.position = some c) (refused : test.accepts c = false) :
      Meets text path (.char test) (.halts .exhausted)
  | behind {test} (past : ¬ path.position < text.size) :
      Meets text path (.char test) (.halts .exhausted)
  | offText {test} (before : path.position < text.size)
      (missing : Indexing.item? text path.position = none) :
      Meets text path (.char test) (.halts (.offText path.position))
  | jump (target : Int) : Meets text path (.jump target) (.goes { path with pc := target })
  | fork (first second : Int) :
      Meets text path (.fork first second)
        (.forks { path with pc := first } { path with pc := second })
  | anchored {place} (holds : path.atAnchor text place = true) :
      Meets text path (.anchor place) (.goes { path with pc := path.pc + 1 })
  | unanchored {place} (fails : path.atAnchor text place = false) :
      Meets text path (.anchor place) (.halts .exhausted)
  | opened :
      Meets text path .openGroup
        (.goes { path with pc := path.pc + 1, opened := path.position :: path.opened })
  | closed {start opened} (known : path.opened = start :: opened) :
      Meets text path .closeGroup
        (.goes { path with
          pc := path.pc + 1
          opened
          closed := path.closed.push ⟨start, path.position⟩ })
  | unopened (none : path.opened = []) : Meets text path .closeGroup (.halts .unopened)
  | finish : Meets text path .finish (.halts (.matched path.position path.closed))

theorem meets_meet (text : Array Char) (path : Path) (instruction : Instruction) :
    Meets text path instruction (path.meet text instruction) := by
  cases instruction with
  | char test =>
      simp only [Path.meet, Path.take]
      split
      · next before =>
          cases read : Indexing.item? text path.position with
          | none => exact .offText before read
          | some c =>
              cases accepted : test.accepts c with
              | false =>
                  simp only [accepted]
                  exact .refused before read accepted
              | true =>
                  simp only [accepted]
                  exact .taken before read accepted
      · next past => exact .behind past
  | jump target => exact .jump target
  | fork first second => exact .fork first second
  | anchor place =>
      simp only [Path.meet]
      cases holds : path.atAnchor text place with
      | false => exact .unanchored holds
      | true => exact .anchored holds
  | openGroup => exact .opened
  | closeGroup =>
      simp only [Path.meet, Path.close]
      split
      · next none => exact .unopened none
      · next start opened known => exact .closed known
  | finish => exact .finish

/-- A path that does not stray meets an instruction. -/
theorem meets_of_fate {instructions : Array Instruction} {text : Array Char} {path : Path}
    {fate : Fate} (reached : path.fate instructions text = fate) (inside : fate ≠ .halts .strayed) :
    ∃ instruction, fetch instructions path.pc = some instruction ∧
      Meets text path instruction fate := by
  unfold Path.fate at reached
  cases fetched : fetch instructions path.pc with
  | none =>
      rw [fetched] at reached
      exact absurd reached.symm inside
  | some instruction =>
      rw [fetched] at reached
      rw [← reached]
      exact ⟨instruction, rfl, meets_meet text path instruction⟩

inductive Explores (instructions : Array Instruction) (text : Array Char) :
    Path → Nat → Halt → Prop
  | halts {path halt} (fate : path.fate instructions text = .halts halt) :
      Explores instructions text path 1 halt
  | goes {path next steps halt} (fate : path.fate instructions text = .goes next)
      (rest : Explores instructions text next steps halt) :
      Explores instructions text path (steps + 1) halt
  | first {path left right steps halt} (fate : path.fate instructions text = .forks left right)
      (found : Explores instructions text left steps halt) (ended : halt ≠ .exhausted) :
      Explores instructions text path (steps + 1) halt
  | second {path left right leftSteps rightSteps halt}
      (fate : path.fate instructions text = .forks left right)
      (failed : Explores instructions text left leftSteps .exhausted)
      (rest : Explores instructions text right rightSteps halt) :
      Explores instructions text path (leftSteps + rightSteps + 1) halt

section

variable {instructions : Array Instruction} {text : Array Char}

theorem explores_steps_positive {path : Path} {steps : Nat} {halt : Halt}
    (explored : Explores instructions text path steps halt) : 0 < steps := by
  cases explored <;> omega

/-- Exploring a path that goes on is to explore it further on. -/
theorem explores_goes {path next : Path} {steps : Nat} {halt : Halt}
    (fate : path.fate instructions text = .goes next)
    (explored : Explores instructions text path steps halt) :
    ∃ fewer, steps = fewer + 1 ∧ Explores instructions text next fewer halt := by
  cases explored with
  | halts known => simp [fate] at known
  | goes known rest =>
      obtain rfl := Fate.goes.inj (fate.symm.trans known)
      exact ⟨_, rfl, rest⟩
  | first known => simp [fate] at known
  | second known => simp [fate] at known

theorem explores_forks {path left right : Path} {steps : Nat} {halt : Halt}
    (fate : path.fate instructions text = .forks left right)
    (explored : Explores instructions text path steps halt) :
    (∃ fewer, steps = fewer + 1 ∧ Explores instructions text left fewer halt ∧ halt ≠ .exhausted) ∨
    ∃ leftSteps rightSteps, steps = leftSteps + rightSteps + 1 ∧
      Explores instructions text left leftSteps .exhausted ∧
      Explores instructions text right rightSteps halt := by
  cases explored with
  | halts known => simp [fate] at known
  | goes known => simp [fate] at known
  | first known found ended =>
      obtain ⟨rfl, rfl⟩ := Fate.forks.inj (fate.symm.trans known)
      exact .inl ⟨_, rfl, found, ended⟩
  | second known failed rest =>
      obtain ⟨rfl, rfl⟩ := Fate.forks.inj (fate.symm.trans known)
      exact .inr ⟨_, _, rfl, failed, rest⟩

theorem explores_unique {path : Path} {steps otherSteps : Nat} {halt otherHalt : Halt}
    (explored : Explores instructions text path steps halt)
    (other : Explores instructions text path otherSteps otherHalt) :
    steps = otherSteps ∧ halt = otherHalt := by
  induction explored generalizing otherSteps otherHalt with
  | halts fate =>
      cases other <;> simp_all
  | goes fate rest induction =>
      obtain ⟨fewer, rfl, otherRest⟩ := explores_goes fate other
      obtain ⟨rfl, rfl⟩ := induction otherRest
      exact ⟨rfl, rfl⟩
  | first fate found ended induction =>
      rcases explores_forks fate other with ⟨fewer, rfl, otherFound, -⟩ | ⟨_, _, rfl, failed, -⟩
      · obtain ⟨rfl, rfl⟩ := induction otherFound
        exact ⟨rfl, rfl⟩
      · exact absurd (induction failed).2 ended
  | second fate failed rest failedInduction induction =>
      rcases explores_forks fate other with
        ⟨fewer, rfl, found, ended⟩ | ⟨_, _, rfl, otherFailed, otherRest⟩
      · exact absurd (failedInduction found).2.symm ended
      · obtain ⟨rfl, -⟩ := failedInduction otherFailed
        obtain ⟨rfl, rfl⟩ := induction otherRest
        exact ⟨rfl, rfl⟩

/-! ## One step of the machine -/

def Path.turn (path : Path) (checkpoints : List Checkpoint) : Fate → Turn
  | .halts .exhausted => (path.state checkpoints).backtrack
  | .halts halt => .halted halt
  | .goes next => .running (next.state checkpoints)
  | .forks left right => .running (left.state (right.checkpoint :: checkpoints))

theorem take_turn (path : Path) (checkpoints : List Checkpoint) (test : CharTest) :
    (path.state checkpoints).takeChar text test =
      path.turn checkpoints (path.take text test) := by
  unfold State.takeChar Path.take
  by_cases inside : path.position < text.size
  · cases read : Indexing.item? text path.position with
    | none => simp [Path.state, Path.turn, inside, read]
    | some c => cases accepted : test.accepts c <;> simp [Path.state, Path.turn, inside, read, accepted]
  · simp [Path.state, Path.turn, inside]

theorem close_turn (path : Path) (checkpoints : List Checkpoint) :
    (path.state checkpoints).closeGroup = path.turn checkpoints path.close := by
  unfold State.closeGroup Path.close
  cases opened : path.opened <;> simp [Path.state, Path.turn, opened]

theorem turn_of_ended {path : Path} {checkpoints : List Checkpoint} {halt : Halt}
    (ended : halt ≠ .exhausted) : path.turn checkpoints (.halts halt) = .halted halt := by
  cases halt with
  | exhausted => contradiction
  | matched stop captures => rfl
  | strayed => rfl
  | unopened => rfl
  | offText position => rfl

theorem turn_nil (path : Path) (halt : Halt) : path.turn [] (.halts halt) = .halted halt := by
  cases halt <;> rfl

theorem step_state (path : Path) (checkpoints : List Checkpoint) :
    step instructions text (path.state checkpoints) =
      path.turn checkpoints (path.fate instructions text) := by
  have fetched : fetch instructions (path.state checkpoints).pc = fetch instructions path.pc := rfl
  unfold step Path.fate
  rw [fetched]
  cases fetch instructions path.pc with
  | none => rfl
  | some instruction =>
      cases instruction with
      | char test => exact take_turn path checkpoints test
      | anchor place =>
          have same : (path.state checkpoints).atAnchor text place = path.atAnchor text place := by
            cases place <;> rfl
          simp only [State.execute, Path.meet, same]
          cases path.atAnchor text place <;> rfl
      | closeGroup => exact close_turn path checkpoints
      | jump target => rfl
      | fork left right => rfl
      | openGroup => rfl
      | finish => rfl

/-! ## Paths keep the captures they have -/

theorem closed_of_goes {path next : Path} (fate : path.fate instructions text = .goes next) :
    next.closed = path.closed ∨ ∃ span, next.closed = path.closed.push span := by
  obtain ⟨instruction, -, meets⟩ := meets_of_fate fate (by intro strayed; contradiction)
  cases meets with
  | taken before read accepted => exact .inl rfl
  | jump target => exact .inl rfl
  | anchored holds => exact .inl rfl
  | opened => exact .inl rfl
  | closed known => exact .inr ⟨_, rfl⟩

theorem same_of_forks {path left right : Path}
    (fate : path.fate instructions text = .forks left right) :
    (∃ first, left = { path with pc := first }) ∧ ∃ second, right = { path with pc := second } := by
  obtain ⟨instruction, -, meets⟩ := meets_of_fate fate (by intro strayed; contradiction)
  cases meets with
  | fork first second => exact ⟨⟨first, rfl⟩, second, rfl⟩

/-- The newest checkpoint, if there is one, does not know of captures beyond those of the path. -/
def Path.Covers (path : Path) (checkpoints : List Checkpoint) : Prop :=
  ∀ checkpoint ∈ checkpoints.head?, checkpoint.captured ≤ path.closed.size

theorem covers_of_goes {path next : Path} {checkpoints : List Checkpoint}
    (fate : path.fate instructions text = .goes next) (covers : path.Covers checkpoints) :
    next.Covers checkpoints := by
  intro checkpoint newest
  have bound := covers checkpoint newest
  rcases closed_of_goes fate with same | ⟨span, pushed⟩
  · rw [same]
    exact bound
  · rw [pushed, Array.size_push]
    exact Nat.le_succ_of_le bound

theorem shrink_push {Item : Type} (items : Array Item) (item : Item) (count : Nat)
    (bound : count ≤ items.size) : (items.push item).shrink count = items.shrink count := by
  apply Array.toList_inj.mp
  rw [Array.toList_shrink, Array.toList_shrink, Array.toList_push]
  exact List.take_append_of_le_length bound

/-- What a path halts with does not depend on how far it has come. -/
theorem turn_of_goes {path next : Path} {checkpoints : List Checkpoint}
    (fate : path.fate instructions text = .goes next) (covers : path.Covers checkpoints)
    (halt : Halt) : next.turn checkpoints (.halts halt) = path.turn checkpoints (.halts halt) := by
  cases halt with
  | exhausted =>
      cases checkpoints with
      | nil => rfl
      | cons checkpoint older =>
          have bound := covers checkpoint rfl
          rcases closed_of_goes fate with same | ⟨span, pushed⟩
          · simp only [Path.turn, State.backtrack, Path.state, same]
          · simp only [Path.turn, State.backtrack, Path.state, pushed]
            rw [shrink_push _ _ _ bound]
  | matched stop captures => rfl
  | strayed => rfl
  | unopened => rfl
  | offText position => rfl

theorem turn_of_forks {path left right : Path} {checkpoints : List Checkpoint}
    (fate : path.fate instructions text = .forks left right) (halt : Halt) :
    left.turn checkpoints (.halts halt) = path.turn checkpoints (.halts halt) ∧
      right.turn checkpoints (.halts halt) = path.turn checkpoints (.halts halt) := by
  obtain ⟨⟨first, rfl⟩, second, rfl⟩ := same_of_forks fate
  cases halt <;> exact ⟨rfl, rfl⟩

theorem covers_of_forks {path left right : Path} (checkpoints : List Checkpoint)
    (fate : path.fate instructions text = .forks left right) :
    left.Covers (right.checkpoint :: checkpoints) ∧
      (path.Covers checkpoints → right.Covers checkpoints) := by
  obtain ⟨⟨first, rfl⟩, second, rfl⟩ := same_of_forks fate
  refine ⟨?_, fun covers => covers⟩
  intro checkpoint newest
  obtain rfl := Option.some.inj newest
  exact Nat.le_refl _

/-- Going back to the checkpoint of a fork puts the machine on the second path. -/
theorem turn_to_second {path left right : Path} {checkpoints : List Checkpoint}
    (fate : path.fate instructions text = .forks left right) :
    left.turn (right.checkpoint :: checkpoints) (.halts .exhausted) =
      .running (right.state checkpoints) := by
  obtain ⟨⟨first, rfl⟩, second, rfl⟩ := same_of_forks fate
  have whole : path.closed.shrink path.closed.size = path.closed := by
    apply Array.toList_inj.mp
    rw [Array.toList_shrink]
    exact List.take_length
  simp only [Path.turn, State.backtrack, Path.state, Path.checkpoint, whole]

/-! ## Runs of the machine -/

def Turn.follow (instructions : Array Instruction) (text : Array Char) (budget steps : Nat) :
    Turn → Progress
  | .running next => run instructions text budget steps next
  | .halted halt => .halted steps halt

theorem run_succ (budget steps : Nat) (state : State) :
    run instructions text (budget + 1) steps state =
      (step instructions text state).follow instructions text budget (steps + 1) := by
  simp only [run]
  cases step instructions text state <;> rfl

/-- To explore a path is, for the machine, a long way to halt on it. -/
theorem run_explored {path : Path} {steps : Nat} {halt : Halt}
    (explored : Explores instructions text path steps halt) (checkpoints : List Checkpoint)
    (covers : path.Covers checkpoints) (budget done : Nat) :
    run instructions text (steps + budget) done (path.state checkpoints) =
      (path.turn checkpoints (.halts halt)).follow instructions text budget (done + steps) := by
  induction explored generalizing checkpoints budget done with
  | halts fate => rw [Nat.add_comm 1, run_succ, step_state, fate]
  | @goes path next steps halt fate rest induction =>
      have order : steps + 1 + budget = steps + budget + 1 := by omega
      rw [order, run_succ, step_state, fate]
      simp only [Path.turn, Turn.follow]
      rw [induction checkpoints (covers_of_goes fate covers), turn_of_goes fate covers,
        Nat.add_assoc, Nat.add_comm 1]
      rfl
  | @first path left right steps halt fate found ended induction =>
      have order : steps + 1 + budget = steps + budget + 1 := by omega
      rw [order, run_succ, step_state, fate]
      simp only [Path.turn, Turn.follow]
      rw [induction _ (covers_of_forks _ fate).1, turn_of_ended ended, Nat.add_assoc,
        Nat.add_comm 1]
      rfl
  | @second path left right leftSteps rightSteps halt fate failed rest failedInduction induction =>
      have order : leftSteps + rightSteps + 1 + budget =
          leftSteps + (rightSteps + budget) + 1 := by omega
      rw [order, run_succ, step_state, fate]
      simp only [Path.turn, Turn.follow]
      rw [failedInduction _ (covers_of_forks _ fate).1, turn_to_second fate]
      simp only [Turn.follow]
      rw [induction _ ((covers_of_forks _ fate).2 covers), (turn_of_forks fate halt).2]
      have total : done + 1 + leftSteps + rightSteps = done + (leftSteps + rightSteps + 1) := by
        omega
      rw [total]
      rfl

/-- A run that ends after a fork failed on its first path has spent on that path what exploring it
takes, and went on with the second. -/
theorem run_after_failed {path left right : Path} {checkpoints : List Checkpoint}
    {steps budget done total : Nat} {halt : Halt}
    (fate : path.fate instructions text = .forks left right)
    (failed : Explores instructions text left steps .exhausted)
    (ended : run instructions text budget done (left.state (right.checkpoint :: checkpoints)) =
      .halted total halt) :
    steps ≤ budget ∧
      run instructions text (budget - steps) (done + steps) (right.state checkpoints) =
        .halted total halt := by
  have reached := run_explored failed _ (covers_of_forks checkpoints fate).1
  simp only [turn_to_second fate, Turn.follow] at reached
  have enough : steps ≤ budget := by
    apply Nat.le_of_not_lt
    intro short
    -- the run has ended, so it cannot still be on its way through the first path
    have running := reached 0 done
    have split : steps + 0 = budget + (steps - budget) := by omega
    rw [split, run_add, ended] at running
    contradiction
  refine ⟨enough, ?_⟩
  have spent := reached (budget - steps) done
  rw [Nat.add_sub_cancel' enough, ended] at spent
  exact spent.symm

/-- A run that ends has explored the path it began on. -/
theorem explores_of_halted {budget done total : Nat} {path : Path} {checkpoints : List Checkpoint}
    {halt : Halt}
    (ended : run instructions text budget done (path.state checkpoints) = .halted total halt) :
    ∃ steps last, Explores instructions text path steps last := by
  induction budget using Nat.strongRecOn generalizing done path checkpoints with
  | ind budget induction =>
      cases budget with
      | zero => contradiction
      | succ budget =>
          rw [run_succ, step_state] at ended
          cases fate : path.fate instructions text with
          | halts last => exact ⟨1, last, .halts fate⟩
          | goes next =>
              rw [fate] at ended
              obtain ⟨steps, last, rest⟩ := induction budget (Nat.lt_succ_self _) ended
              exact ⟨steps + 1, last, .goes fate rest⟩
          | forks left right =>
              rw [fate] at ended
              obtain ⟨steps, last, found⟩ := induction budget (Nat.lt_succ_self _) ended
              by_cases failed : last = .exhausted
              · subst last
                obtain ⟨enough, remaining⟩ := run_after_failed fate found ended
                obtain ⟨rightSteps, last, rest⟩ := induction (budget - steps) (by omega) remaining
                exact ⟨steps + rightSteps + 1, last, .second fate found rest⟩
              · exact ⟨steps + 1, last, .first fate found failed⟩

/-! ## Attempts -/

/-- A run counts the steps it makes, and makes no more than it may. -/
theorem run_steps (instructions : Array Instruction) (text : Array Char) (budget done : Nat)
    (state : State) :
    match run instructions text budget done state with
    | .running steps _ => steps = done + budget
    | .halted steps _ => steps ≤ done + budget := by
  induction budget generalizing done state with
  | zero => rfl
  | succ budget induction =>
      rw [run_succ, Nat.add_comm budget, ← Nat.add_assoc]
      cases step instructions text state with
      | running next => exact induction (done + 1) next
      | halted halt => exact Nat.le_add_right _ _

/-- An attempt with a step limit explores the path from its offset, as far as the limit goes. -/
theorem attempt_explored {start : Int} {steps : Nat} {halt : Halt}
    (explored : Explores instructions text { position := start } steps halt) (budget : Nat) :
    attempt (some budget) instructions text start =
      if steps ≤ budget then (Progress.halted steps halt).outcome start else .cut budget := by
  have whole : ∀ rest, run instructions text (steps + rest) 0 { position := start } =
      .halted steps halt := by
    intro rest
    have ended := run_explored explored [] (by intro checkpoint newest; contradiction) rest 0
    rw [turn_nil, Nat.zero_add] at ended
    exact ended
  simp only [attempt]
  split
  · next enough =>
      have ended := whole (budget - steps)
      rw [Nat.add_sub_cancel' enough] at ended
      rw [ended]
  · next short =>
      have counted := run_steps instructions text budget 0 { position := start }
      have ended := whole 0
      rw [show steps + 0 = budget + (steps - budget) by omega, run_add] at ended
      cases reached : run instructions text budget 0 { position := start } with
      | running total last =>
          rw [reached] at counted
          rw [counted, Nat.zero_add]
          rfl
      | halted total last =>
          rw [reached] at counted ended
          obtain ⟨rfl, -⟩ := Progress.halted.inj ended
          omega

theorem attempt_unexplored {start : Int}
    (endless : ∀ steps halt, ¬ Explores instructions text { position := start } steps halt)
    (budget : Nat) : attempt (some budget) instructions text start = .cut budget := by
  have counted := run_steps instructions text budget 0 { position := start }
  simp only [attempt]
  cases reached : run instructions text budget 0 { position := start } with
  | running total last =>
      rw [reached] at counted
      rw [counted, Nat.zero_add]
      rfl
  | halted total last =>
      have onPath : run instructions text budget 0 (({ position := start } : Path).state []) =
          .halted total last := reached
      obtain ⟨steps, halt, explored⟩ := explores_of_halted onPath
      exact absurd explored (endless steps halt)

/-- An attempt that ends before its step limit has explored the path from its offset. -/
theorem explores_of_attempt {start : Int} {budget : Nat} {outcome : Outcome}
    (reached : attempt (some budget) instructions text start = outcome)
    (uncut : ∀ steps, outcome ≠ .cut steps) :
    ∃ steps halt, steps ≤ budget ∧ Explores instructions text { position := start } steps halt ∧
      outcome = (Progress.halted steps halt).outcome start := by
  by_cases ends : ∃ steps halt, Explores instructions text { position := start } steps halt
  · obtain ⟨steps, halt, explored⟩ := ends
    have whole := attempt_explored explored budget
    rw [reached] at whole
    split at whole
    · next enough => exact ⟨steps, halt, enough, explored, whole⟩
    · exact absurd whole (uncut budget)
  · have cut := attempt_unexplored (fun steps halt explored => ends ⟨steps, halt, explored⟩) budget
    exact absurd (reached.symm.trans cut) (uncut budget)

theorem attempt_cut_iff {start : Int} :
    (∀ budget, attempt (some budget) instructions text start = .cut budget) ↔
      ∀ steps halt, ¬ Explores instructions text { position := start } steps halt := by
  refine ⟨?_, attempt_unexplored⟩
  intro cut steps halt explored
  have whole := attempt_explored explored steps
  rw [if_pos (Nat.le_refl steps), cut steps] at whole
  cases halt <;> contradiction

end

end RegexMachine.Machine
