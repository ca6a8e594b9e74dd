import RegexMachine.Proofs.Reachable

/-!
# Going back restores the captures

All paths share one array of captures, and a checkpoint only knows how many there were. While a checkpoint
waits, the checkpoints above it know of no fewer captures than it does, so that going back to one of them
never drops a capture that it counts, and appended captures come behind those. The array thus begins
with what it held when the checkpoint was left. Cutting it off there puts the machine on the path that it
did not take then, with nothing changed but the instruction.
-/

namespace RegexMachine.Machine

/-! ## What a step does to the checkpoints -/

inductive Moves (state : State) : State → Prop
  | on {next} (kept : next.checkpoints = state.checkpoints)
      (more : state.closed.toList <+: next.closed.toList) : Moves state next
  | forks (first second : Int) : Moves state (state.fork first second)
  | back {next} (returns : state.backtrack = .running next) : Moves state next

section

variable {instructions : Array Instruction} {text : Array Char} {start : Int} {state next : State}

theorem moves_of_step (turn : step instructions text state = .running next) : Moves state next := by
  let path : Path := ⟨state.pc, state.position, state.opened, state.closed⟩
  have onPath : path.state state.checkpoints = state := rfl
  rw [← onPath, step_state] at turn
  cases fate : path.fate instructions text with
  | halts halt =>
      rw [fate] at turn
      by_cases exhausted : halt = .exhausted
      · rw [exhausted] at turn
        exact .back turn
      · rw [turn_of_ended exhausted] at turn
        contradiction
  | goes further =>
      rw [fate] at turn
      obtain rfl := Turn.running.inj turn
      have more : path.closed.toList <+: further.closed.toList := by
        rcases closed_of_goes fate with same | ⟨span, pushed⟩
        · rw [same]
        · rw [pushed, Array.toList_push]
          exact List.prefix_append _ _
      exact .on rfl more
  | forks left right =>
      rw [fate] at turn
      obtain rfl := Turn.running.inj turn
      obtain ⟨⟨first, rfl⟩, second, rfl⟩ := same_of_forks fate
      exact .forks first second

theorem backtrack_cases (returns : state.backtrack = .running next) :
    ∃ checkpoint older, state.checkpoints = checkpoint :: older ∧
      next =
        { pc := checkpoint.resume
          position := checkpoint.position
          opened := checkpoint.opened
          closed := state.closed.shrink checkpoint.captured
          checkpoints := older } := by
  unfold State.backtrack at returns
  split at returns
  · contradiction
  · next checkpoint older waiting => exact ⟨checkpoint, older, waiting, (Turn.running.inj returns).symm⟩

/-- Only a fork makes the stack grow. -/
theorem fork_of_grown {checkpoint : Checkpoint} (turn : step instructions text state = .running next)
    (grown : next.checkpoints = checkpoint :: state.checkpoints) :
    next.closed = state.closed ∧
      checkpoint = ⟨checkpoint.resume, state.position, state.opened, state.closed.size⟩ := by
  have lengths := congrArg List.length grown
  rw [List.length_cons] at lengths
  cases moves_of_step turn with
  | on kept more =>
      rw [kept] at lengths
      omega
  | forks first second =>
      obtain rfl := (List.cons.inj grown).1
      exact ⟨rfl, rfl⟩
  | back returns =>
      obtain ⟨newest, older, waiting, rfl⟩ := backtrack_cases returns
      simp only [waiting, List.length_cons] at lengths
      omega

/-! ## Checkpoints of one state -/

theorem captured_le_size (reachable : Reachable instructions text start state) :
    ∀ checkpoint ∈ state.checkpoints, checkpoint.captured ≤ state.closed.size := by
  obtain ⟨path, waiting, rfl, -, older⟩ := holds_of_reachable reachable
  intro checkpoint member
  obtain ⟨waits, among, rfl⟩ := List.mem_map.mp member
  exact ((List.pairwise_cons.mp older).1 waits among).length_le

/-- The newer a checkpoint is, the more captures it knows of. -/
theorem captured_pairwise (reachable : Reachable instructions text start state) :
    state.checkpoints.Pairwise fun newer older => older.captured ≤ newer.captured := by
  obtain ⟨path, waiting, rfl, -, older⟩ := holds_of_reachable reachable
  apply List.pairwise_map.mpr
  apply (List.pairwise_cons.mp older).2.imp
  intro newer older first
  exact first.length_le

end

/-! ## A checkpoint while it waits -/

section

variable (instructions : Array Instruction) (text : Array Char)

/-- A step after which the machine still has the checkpoints in `stack`. -/
def StepsOver (stack : List Checkpoint) (state next : State) : Prop :=
  step instructions text state = .running next ∧ stack <:+ next.checkpoints

/-- At `moment` the machine left the checkpoint on top of those in `older`, and it has come from there
to `state` with the checkpoint waiting all the time. -/
structure LeftAt (start : Int) (checkpoint : Checkpoint) (older : List Checkpoint)
    (moment state : State) : Prop where
  reachable : Reachable instructions text start moment
  beneath : moment.checkpoints = older
  waits : ∃ forked, step instructions text moment = .running forked ∧
    forked.checkpoints = checkpoint :: older ∧
    Relation.ReflTransGen (StepsOver instructions text (checkpoint :: older)) forked state

end

section

variable {instructions : Array Instruction} {text : Array Char} {start : Int} {state next moment : State}
  {checkpoint : Checkpoint} {older : List Checkpoint}

/-- A step does not touch the captures that a waiting checkpoint counts. -/
theorem take_of_steps_over (reachable : Reachable instructions text start state)
    (waiting : checkpoint :: older <:+ state.checkpoints)
    (stepsOver : StepsOver instructions text (checkpoint :: older) state next) :
    next.closed.toList.take checkpoint.captured = state.closed.toList.take checkpoint.captured := by
  obtain ⟨turn, waits⟩ := stepsOver
  cases moves_of_step turn with
  | on kept more =>
      obtain ⟨pushed, same⟩ := more
      have known := captured_le_size reachable checkpoint (waiting.mem List.mem_cons_self)
      rw [← same, List.take_append_of_le_length known]
  | forks first second => rfl
  | back returns =>
      obtain ⟨newest, others, stack, rfl⟩ := backtrack_cases returns
      have ordered := captured_pairwise reachable
      rw [stack, List.pairwise_cons] at ordered
      have fewer := ordered.1 checkpoint (waits.mem List.mem_cons_self)
      rw [Array.toList_shrink, List.take_take, Nat.min_eq_left fewer]

theorem waiting_since (reachable : Reachable instructions text start state)
    (waiting : checkpoint :: older <:+ state.checkpoints)
    (since : Relation.ReflTransGen (StepsOver instructions text (checkpoint :: older)) state next) :
    Reachable instructions text start next ∧ checkpoint :: older <:+ next.checkpoints ∧
      next.closed.toList.take checkpoint.captured =
        state.closed.toList.take checkpoint.captured := by
  induction since with
  | refl => exact ⟨reachable, waiting, rfl⟩
  | tail earlier stepsOver induction =>
      obtain ⟨reached, waits, same⟩ := induction
      have step := take_of_steps_over reached waits stepsOver
      exact ⟨.step reached stepsOver.1, stepsOver.2, step.trans same⟩

/-- The array begins with what it held when the checkpoint was left. -/
theorem take_of_left_at (leftAt : LeftAt instructions text start checkpoint older moment state) :
    state.closed.toList.take checkpoint.captured = moment.closed.toList := by
  obtain ⟨reachable, rfl, forked, turn, grown, since⟩ := leftAt
  obtain ⟨closed, made⟩ := fork_of_grown turn grown
  obtain ⟨-, -, same⟩ := waiting_since (.step reachable turn) (grown ▸ List.suffix_rfl) since
  rw [same, closed, made]
  exact List.take_length

theorem shrink_of_left_at (leftAt : LeftAt instructions text start checkpoint older moment state) :
    state.closed.shrink checkpoint.captured = moment.closed := by
  apply Array.toList_inj.mp
  rw [Array.toList_shrink]
  exact take_of_left_at leftAt

/-- Going back to a checkpoint leads to where it was left, and on to the instruction that it names. -/
theorem backtrack_of_left_at (leftAt : LeftAt instructions text start checkpoint older moment state)
    (newest : state.checkpoints = checkpoint :: older) :
    state.backtrack = .running { moment with pc := checkpoint.resume } := by
  have restored := shrink_of_left_at leftAt
  obtain ⟨-, rfl, forked, turn, grown, -⟩ := leftAt
  obtain ⟨-, made⟩ := fork_of_grown turn grown
  have position : checkpoint.position = moment.position := by rw [made]
  have opened : checkpoint.opened = moment.opened := by rw [made]
  simp only [State.backtrack, newest, restored, position, opened]

theorem left_at_step (leftAt : LeftAt instructions text start checkpoint older moment state)
    (turn : step instructions text state = .running next)
    (waits : checkpoint :: older <:+ next.checkpoints) :
    LeftAt instructions text start checkpoint older moment next := by
  obtain ⟨reachable, beneath, forked, forks, grown, since⟩ := leftAt
  exact ⟨reachable, beneath, forked, forks, grown, since.tail ⟨turn, waits⟩⟩

/-- A step that forks leaves the newest checkpoint; all others wait already before the step. -/
theorem exists_left_at (reachable : Reachable instructions text start state)
    {newer : List Checkpoint} (stack : state.checkpoints = newer ++ checkpoint :: older) :
    ∃ moment, LeftAt instructions text start checkpoint older moment state := by
  induction reachable generalizing newer with
  | initial => simp at stack
  | @step state next reachable turn induction =>
      have waits : checkpoint :: older <:+ next.checkpoints := stack ▸ List.suffix_append _ _
      cases moves_of_step turn with
      | on kept more =>
          obtain ⟨moment, leftAt⟩ := induction (kept ▸ stack)
          exact ⟨moment, left_at_step leftAt turn waits⟩
      | forks first second =>
          cases newer with
          | nil =>
              obtain ⟨-, rfl⟩ := List.cons.inj stack
              exact ⟨state, reachable, rfl, _, turn, stack, .refl⟩
          | cons newest newer =>
              obtain ⟨moment, leftAt⟩ := induction (List.cons.inj stack).2
              exact ⟨moment, left_at_step leftAt turn waits⟩
      | back returns =>
          obtain ⟨newest, others, before, rfl⟩ := backtrack_cases returns
          have longer : state.checkpoints = (newest :: newer) ++ checkpoint :: older := by
            rw [before, List.cons_append]
            exact congrArg (newest :: ·) stack
          obtain ⟨moment, leftAt⟩ := induction longer
          exact ⟨moment, left_at_step leftAt turn waits⟩

end

/-- Whatever the program, in every state that the machine reaches the newer checkpoints know of no fewer
captures than the older ones, and none knows of more than there are. Each was left at some moment of the
run, and the captures that it counts are those of that moment, so that cutting off all others restores
them. Going back to it restores the rest of that state as well. -/
theorem truncation_restores {instructions : Array Instruction} {text : Array Char} {start : Int}
    {state : State} (reachable : Reachable instructions text start state) :
    (state.checkpoints.Pairwise fun newer older => older.captured ≤ newer.captured) ∧
    (∀ checkpoint ∈ state.checkpoints, checkpoint.captured ≤ state.closed.size) ∧
    ∀ newer checkpoint older, state.checkpoints = newer ++ checkpoint :: older →
      (∃ moment, LeftAt instructions text start checkpoint older moment state) ∧
      ∀ moment, LeftAt instructions text start checkpoint older moment state →
        state.closed.toList.take checkpoint.captured = moment.closed.toList ∧
        state.closed.shrink checkpoint.captured = moment.closed ∧
        (newer = [] → state.backtrack = .running { moment with pc := checkpoint.resume }) := by
  constructor
  · exact captured_pairwise reachable
  constructor
  · exact captured_le_size reachable
  intro newer checkpoint older stack
  constructor
  · exact exists_left_at reachable stack
  intro moment leftAt
  constructor
  · exact take_of_left_at leftAt
  constructor
  · exact shrink_of_left_at leftAt
  intro none
  rw [none] at stack
  exact backtrack_of_left_at leftAt stack

/-- Two groups have been closed, the second of them behind the newer checkpoint: going back to it keeps
the first group and drops the second one. -/
theorem truncation_restores_first_group :
    let instructions : Array Instruction :=
      #[.fork 1 9, .openGroup, .char (.exactly 'a'), .closeGroup, .fork 5 8, .openGroup,
        .char (.exactly 'b'), .closeGroup, .char (.exactly 'c'), .finish]
    let text := #['a', 'b']
    let outer : Checkpoint := ⟨9, 0, [], 0⟩
    let inner : Checkpoint := ⟨8, 1, [], 1⟩
    let state : State := ⟨8, 2, [], #[⟨0, 1⟩, ⟨1, 2⟩], [inner, outer]⟩
    Reachable instructions text 0 state ∧ outer.captured ≤ inner.captured ∧
      inner.captured ≤ state.closed.size ∧
      (∃ moment, LeftAt instructions text 0 outer [] moment state ∧ moment.closed = #[]) ∧
      ∃ moment, LeftAt instructions text 0 inner [outer] moment state ∧ moment.closed = #[⟨0, 1⟩] ∧
        state.backtrack = .running { moment with pc := 8 } := by
  intro instructions text outer inner state
  have reachable : Reachable instructions text 0 state :=
    .step (.step (.step (.step (.step (.step (.step (.step .initial rfl) rfl) rfl) rfl) rfl) rfl)
      rfl) rfl
  obtain ⟨ordered, bounded, restores⟩ := truncation_restores reachable
  obtain ⟨⟨first, leftFirst⟩, ofFirst⟩ := restores [inner] outer [] rfl
  obtain ⟨⟨second, leftSecond⟩, ofSecond⟩ := restores [] inner [outer] rfl
  refine ⟨reachable, (List.pairwise_cons.mp ordered).1 outer List.mem_cons_self,
    bounded inner List.mem_cons_self, ⟨first, leftFirst, ?_⟩, second, leftSecond, ?_, ?_⟩
  · exact (ofFirst first leftFirst).2.1.symm
  · exact (ofSecond second leftSecond).2.1.symm
  · exact (ofSecond second leftSecond).2.2 rfl

end RegexMachine.Machine
