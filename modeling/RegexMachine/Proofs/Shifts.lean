import RegexMachine.Proofs.Budgets

/-!
# Attempts do not look behind their start

The machine compares offsets with each other and with the back of the text, and it takes characters
where it is. A text in front of the start therefore only moves all offsets of an attempt: the run is the
run on the rest alone, with every offset as many characters farther on. The anchor at the front is the
one exception. Behind some text it fails wherever it is met, as a test does that no character passes.
-/

namespace RegexMachine

open RegexMachine.Machine RegexMachine.Indexing

/-! ## Moving offsets -/

def Span.shift (offset : Int) (span : Span) : Span := ⟨span.start + offset, span.stop + offset⟩

namespace Machine

def Checkpoint.shift (offset : Int) (checkpoint : Checkpoint) : Checkpoint :=
  { checkpoint with
    position := checkpoint.position + offset
    opened := checkpoint.opened.map (· + offset) }

def State.shift (offset : Int) (state : State) : State :=
  { pc := state.pc
    position := state.position + offset
    opened := state.opened.map (· + offset)
    closed := state.closed.map (Span.shift offset)
    checkpoints := state.checkpoints.map (Checkpoint.shift offset) }

def Halt.shift (offset : Int) : Halt → Halt
  | .matched stop captures => .matched (stop + offset) (captures.map (Span.shift offset))
  | .exhausted => .exhausted
  | .strayed => .strayed
  | .unopened => .unopened
  | .offText position => .offText (position + offset)

def Turn.shift (offset : Int) : Turn → Turn
  | .running state => .running (state.shift offset)
  | .halted halt => .halted (halt.shift offset)

def Progress.shift (offset : Int) : Progress → Progress
  | .running steps state => .running steps (state.shift offset)
  | .halted steps halt => .halted steps (halt.shift offset)

def Outcome.shift (offset : Int) : Outcome → Outcome
  | .found spans steps => .found (spans.map (Span.shift offset)) steps
  | .missed steps => .missed steps
  | .offText position => .offText (position + offset)
  | .cut steps => .cut steps

theorem outcome_shift (offset start : Int) (progress : Progress) :
    (progress.shift offset).outcome (start + offset) = (progress.outcome start).shift offset := by
  cases progress with
  | running steps state => rfl
  | halted steps halt =>
      cases halt with
      | matched stop captures =>
          simp only [Progress.shift, Halt.shift, Progress.outcome, Outcome.shift, Span.shift,
            Array.toList_map, List.map_cons]
      | exhausted => rfl
      | strayed => rfl
      | unopened => rfl
      | offText position => rfl

theorem shift_initial (offset position : Int) :
    State.shift offset { position } = { position := position + offset } := by
  simp [State.shift]

theorem shift_eq_cut_iff {offset : Int} {outcome : Outcome} {steps : Nat} :
    outcome.shift offset = .cut steps ↔ outcome = .cut steps := by
  cases outcome <;> simp [Outcome.shift]

end Machine

/-- The instruction where the front of the text is out of reach: the anchor fails there. -/
def Instruction.barred : Instruction → Instruction
  | anchor .front => char (.oneOf false .empty)
  | instruction => instruction

theorem barred_of_ne {instruction : Instruction} (other : instruction ≠ .anchor .front) :
    instruction.barred = instruction := by
  unfold Instruction.barred
  split
  · contradiction
  · rfl

theorem map_barred_of_not_mem {instructions : Array Instruction}
    (absent : .anchor .front ∉ instructions) : instructions.map Instruction.barred = instructions := by
  have same : ∀ instruction ∈ instructions, instruction.barred = id instruction := by
    intro instruction member
    apply barred_of_ne
    rintro rfl
    exact absent member
  rw [Array.map_congr_left same, Array.map_id]

namespace Machine

/-! ## Steps -/

section

variable {instructions : Array Instruction} {before text : Array Char} {state : State}

theorem fetch_map (change : Instruction → Instruction) (pc : Int) :
    fetch (instructions.map change) pc = (fetch instructions pc).map change := by
  unfold fetch
  split
  · rfl
  · exact Array.getElem?_map

theorem item_append {position : Int} (nonnegative : 0 ≤ position) :
    item? (before ++ text) (position + before.size) = item? text position := by
  obtain ⟨place, rfl⟩ := Int.eq_ofNat_of_zero_le nonnegative
  have inside : (place : Int) + before.size = (place + before.size : Nat) := rfl
  rw [inside, item_nat_cast, item_nat_cast, Array.getElem?_append_right (Nat.le_add_left _ _),
    Nat.add_sub_cancel]

theorem backtrack_shift (offset : Int) (state : State) :
    (state.shift offset).backtrack = state.backtrack.shift offset := by
  unfold State.backtrack
  cases waiting : state.checkpoints with
  | nil => simp [State.shift, waiting, Turn.shift, Halt.shift]
  | cons checkpoint older => simp [State.shift, waiting, Turn.shift, Checkpoint.shift]

theorem take_char_shift (nonnegative : 0 ≤ state.position) (test : CharTest) :
    (state.shift before.size).takeChar (before ++ text) test =
      (state.takeChar text test).shift before.size := by
  have position : (state.shift before.size).position = state.position + before.size := rfl
  have inside : (state.shift before.size).position < (before ++ text).size ↔
      state.position < text.size := by
    rw [position, Array.size_append]
    omega
  have read : item? (before ++ text) (state.shift before.size).position =
      item? text state.position := item_append nonnegative
  unfold State.takeChar
  rw [read]
  simp only [inside]
  split
  · cases item? text state.position with
    | none => rfl
    | some c =>
        dsimp only
        split
        · simp [Turn.shift, State.shift, Int.add_right_comm]
        · exact backtrack_shift _ _
  · exact backtrack_shift _ _

/-- A test that no character passes fails like any other test. -/
theorem take_char_empty (nonnegative : 0 ≤ state.position) :
    state.takeChar text (.oneOf false .empty) = state.backtrack := by
  obtain ⟨place, same⟩ := Int.eq_ofNat_of_zero_le nonnegative
  unfold State.takeChar
  split
  · next inside =>
      rw [same, item_nat_cast, Array.getElem?_eq_getElem (by omega)]
      rfl
  · rfl

theorem close_group_shift (offset : Int) (state : State) :
    (state.shift offset).closeGroup = state.closeGroup.shift offset := by
  unfold State.closeGroup
  cases opened : state.opened with
  | nil => simp [State.shift, opened, Turn.shift, Halt.shift]
  | cons start outer => simp [State.shift, opened, Turn.shift, Span.shift]

theorem anchor_shift (place : Anchor)
    (holds : (state.shift before.size).atAnchor (before ++ text) place = state.atAnchor text place) :
    (state.shift before.size).execute (before ++ text) (.anchor place) =
      (state.execute text (.anchor place)).shift before.size := by
  simp only [State.execute, holds]
  split
  · rfl
  · exact backtrack_shift _ _

theorem execute_shift (nonnegative : 0 ≤ state.position) {instruction : Instruction}
    (behind : instruction = .anchor .front → before ≠ #[]) :
    (state.shift before.size).execute (before ++ text) instruction =
      (state.execute text instruction.barred).shift before.size := by
  have position : (state.shift before.size).position = state.position + before.size := rfl
  cases instruction with
  | char test => exact take_char_shift nonnegative test
  | jump target => rfl
  | fork first second =>
      simp [State.execute, State.fork, State.shift, Turn.shift, Checkpoint.shift, Instruction.barred]
  | anchor place =>
      cases place with
      | front =>
          have some : 0 < before.size := Array.size_pos_iff.mpr (behind rfl)
          have fails : (state.shift before.size).atAnchor (before ++ text) .front = false := by
            rw [State.atAnchor, position, beq_eq_false_iff_ne]
            omega
          simp only [Instruction.barred, State.execute, fails, take_char_empty nonnegative]
          exact backtrack_shift _ _
      | back =>
          refine anchor_shift .back ?_
          rw [State.atAnchor, State.atAnchor, position, Array.size_append, Bool.eq_iff_iff]
          simp only [beq_iff_eq]
          omega
  | openGroup => rfl
  | closeGroup => exact close_group_shift _ _
  | finish => rfl

theorem step_shift (nonnegative : 0 ≤ state.position)
    (behind : .anchor .front ∈ instructions → before ≠ #[]) :
    step instructions (before ++ text) (state.shift before.size) =
      (step (instructions.map Instruction.barred) text state).shift before.size := by
  have pc : (state.shift before.size).pc = state.pc := rfl
  unfold step
  rw [pc, fetch_map]
  cases fetched : fetch instructions state.pc with
  | none => rfl
  | some instruction =>
      apply execute_shift nonnegative
      rintro rfl
      exact behind (Array.mem_of_getElem? (fetch_eq_some_iff.mp fetched).2)

end

/-! ## Runs and attempts -/

section

variable {instructions : Array Instruction} {before text : Array Char}
  (behind : .anchor .front ∈ instructions → before ≠ #[])

include behind

theorem run_shift {start : Int} (nonnegative : 0 ≤ start) {state : State}
    (reachable : Reachable (instructions.map Instruction.barred) text start state)
    (budget steps : Nat) :
    run instructions (before ++ text) budget steps (state.shift before.size) =
      (run (instructions.map Instruction.barred) text budget steps state).shift before.size := by
  induction budget generalizing steps state with
  | zero => rfl
  | succ budget induction =>
      obtain ⟨path, waiting, same, inText, -⟩ := inherited_of_reachable inherited_in_text
        ⟨Int.le_refl _, Int.le_max_left _ _⟩ reachable
      have position : state.position = path.position := by rw [same, Path.state]
      have forward : 0 ≤ state.position := position ▸ Int.le_trans nonnegative inText.1
      rw [run_succ, run_succ, step_shift forward behind]
      cases turn : step (instructions.map Instruction.barred) text state with
      | running next => exact induction (.step reachable turn) (steps + 1)
      | halted halt => rfl

theorem attempt_shift_budget (text : Array Char) (start budget : Nat) :
    attempt (some budget) instructions (before ++ text) (before.size + start : Nat) =
      (attempt (some budget) (instructions.map Instruction.barred) text start).shift before.size := by
  have shifted := run_shift behind (Int.natCast_nonneg start)
    (.initial : Reachable _ text start _) budget 0
  have place : ((before.size + start : Nat) : Int) = start + before.size := by
    rw [Nat.add_comm, Int.natCast_add]
  rw [place]
  simp only [attempt, ← outcome_shift]
  rw [← shifted, shift_initial]

/-- Behind another text an attempt ends as on the rest alone, or neither of the two ends. -/
theorem attempt_shift (limit : Option Nat) (text : Array Char) (start : Nat) :
    attempt limit instructions (before ++ text) (before.size + start : Nat) =
      (attempt limit (instructions.map Instruction.barred) text start).shift before.size ∨
    limit = none ∧
      (∃ spent, attempt none instructions (before ++ text) (before.size + start : Nat) = .cut spent) ∧
      ∃ steps, attempt none (instructions.map Instruction.barred) text start = .cut steps := by
  cases limit with
  | some budget => exact .inl (attempt_shift_budget behind text start budget)
  | none =>
      obtain ⟨budget, ofWhole⟩ :=
        exists_budget none instructions (before ++ text) (before.size + start : Nat)
      obtain ⟨restBudget, ofRest⟩ :=
        exists_budget none (instructions.map Instruction.barred) text start
      by_cases wholeCut : ∃ spent,
        attempt none instructions (before ++ text) (before.size + start : Nat) = .cut spent
      · by_cases restCut : ∃ steps,
          attempt none (instructions.map Instruction.barred) text start = .cut steps
        · exact .inr ⟨rfl, wholeCut, restCut⟩
        · left
          have uncut := not_exists.mp restCut
          rw [ofRest] at uncut
          rw [ofRest, ← attempt_shift_budget behind text start restBudget]
          apply attempt_unlimited_eq
          intro steps cut
          rw [attempt_shift_budget behind, shift_eq_cut_iff] at cut
          exact uncut steps cut
      · left
        have uncut := not_exists.mp wholeCut
        rw [ofWhole, attempt_shift_budget behind] at uncut ⊢
        rw [attempt_unlimited_eq]
        intro steps cut
        exact uncut steps (shift_eq_cut_iff.mpr cut)

theorem attempt_shift_uncut {limit : Option Nat} {text : Array Char} {start : Nat}
    (uncut : ∀ steps, attempt limit (instructions.map Instruction.barred) text start ≠ .cut steps) :
    attempt limit instructions (before ++ text) (before.size + start : Nat) =
      (attempt limit (instructions.map Instruction.barred) text start).shift before.size := by
  rcases attempt_shift behind limit text start with same | ⟨rfl, -, steps, cut⟩
  · exact same
  · exact absurd cut (uncut steps)

theorem attempt_shift_cut {limit : Option Nat} {text : Array Char} {start steps : Nat}
    (cut : attempt limit (instructions.map Instruction.barred) text start = .cut steps) :
    ∃ spent, attempt limit instructions (before ++ text) (before.size + start : Nat) = .cut spent ∧
      (limit ≠ none → spent = steps) := by
  rcases attempt_shift behind limit text start with same | ⟨rfl, ⟨spent, wholeCut⟩, -⟩
  · rw [cut] at same
    exact ⟨steps, same, fun _ => rfl⟩
  · exact ⟨spent, wholeCut, fun limited => absurd rfl limited⟩

end

/-! ## Searches -/

theorem shift_eq_found {offset : Int} {outcome : Outcome} {spans : List Span} {steps : Nat}
    (found : outcome.shift offset = .found spans steps) :
    ∃ own, outcome = .found own steps ∧ spans = own.map (Span.shift offset) := by
  cases outcome with
  | found own counted =>
      obtain ⟨rfl, rfl⟩ := Outcome.found.inj found
      exact ⟨own, rfl, rfl⟩
  | missed counted => contradiction
  | offText position => contradiction
  | cut counted => contradiction

/-- What a search finds is what an attempt at the beginning of the rest of the text finds. -/
theorem search_found_shift {instructions : Array Instruction}
    (frontless : .anchor .front ∉ instructions) {limit : Option Nat} {text : Array Char}
    {start steps : Nat} {spans : List Span}
    (found : search limit instructions text = .found start spans steps) :
    ∃ own counted, attempt limit instructions (text.drop start) (0 : Nat) = .found own counted ∧
      spans = own.map (Span.shift start) := by
  rcases search_cases limit instructions text with ⟨last, endsAt⟩ | ⟨-, absent⟩
  · have ends := endsAt.ends
    rw [found] at ends
    obtain ⟨rfl, counted, attempted, -⟩ := ends_found ends
    have split : text.take start ++ text.drop start = text := by
      apply Array.toList_inj.mp
      simp
    have size : (text.take start).size = start := by
      simp [Nat.le_of_lt endsAt.inside]
    have behind : .anchor .front ∈ instructions → text.take start ≠ #[] :=
      fun asked => absurd asked frontless
    have shifted := attempt_shift behind limit (text.drop start) 0
    rw [map_barred_of_not_mem frontless, split, size, Nat.add_zero, attempted] at shifted
    rcases shifted with same | ⟨rfl, ⟨spent, cut⟩, -⟩
    · obtain ⟨own, ofRest, ofSpans⟩ := shift_eq_found same.symm
      exact ⟨own, counted, ofRest, ofSpans⟩
    · rw [attempted] at cut
      contradiction
  · rw [absent] at found
    contradiction

/-- Behind two texts the same attempt ends in the same way with the same steps, and its spans are the
same when they are counted from its start. A program that asks for the front of the text can tell an
empty text in front of the start from one that is not empty, and no more. What a search finds is
found without the text in front of it. -/
theorem attempt_forgets_before :
    (∀ (instructions : Array Instruction) (before other text : Array Char) (start : Nat)
      (limit : Option Nat),
      (.anchor .front ∉ instructions ∨ before ≠ #[] ∧ other ≠ #[]) →
      (∃ (spans : List Span) (steps : Nat),
        attempt limit instructions (before ++ text) (before.size + start : Nat) =
          .found (spans.map (Span.shift before.size)) steps ∧
        attempt limit instructions (other ++ text) (other.size + start : Nat) =
          .found (spans.map (Span.shift other.size)) steps) ∨
      (∃ steps,
        attempt limit instructions (before ++ text) (before.size + start : Nat) = .missed steps ∧
        attempt limit instructions (other ++ text) (other.size + start : Nat) = .missed steps) ∨
      ∃ steps otherSteps,
        attempt limit instructions (before ++ text) (before.size + start : Nat) = .cut steps ∧
        attempt limit instructions (other ++ text) (other.size + start : Nat) = .cut otherSteps ∧
        (limit ≠ none → steps = otherSteps)) ∧
    ∀ (instructions : Array Instruction) (text : Array Char) (limit : Option Nat) (start steps : Nat)
      (spans : List Span), .anchor .front ∉ instructions →
      search limit instructions text = .found start spans steps →
      ∃ own counted, attempt limit instructions (text.drop start) (0 : Nat) = .found own counted ∧
        spans = own.map (Span.shift start) := by
  constructor
  · intro instructions before other text start limit alike
    have behind : .anchor .front ∈ instructions → before ≠ #[] := by
      intro asked
      exact (alike.resolve_left (not_not.mpr asked)).1
    have otherBehind : .anchor .front ∈ instructions → other ≠ #[] := by
      intro asked
      exact (alike.resolve_left (not_not.mpr asked)).2
    -- both attempts are compared with the one on `text` alone
    cases ends : attempt limit (instructions.map Instruction.barred) text start with
    | found spans steps =>
        have uncut : ∀ cutSteps, attempt limit (instructions.map Instruction.barred) text start ≠
            .cut cutSteps := by rw [ends]; exact nofun
        rw [attempt_shift_uncut behind uncut, attempt_shift_uncut otherBehind uncut, ends]
        exact .inl ⟨spans, steps, rfl, rfl⟩
    | missed steps =>
        have uncut : ∀ cutSteps, attempt limit (instructions.map Instruction.barred) text start ≠
            .cut cutSteps := by rw [ends]; exact nofun
        rw [attempt_shift_uncut behind uncut, attempt_shift_uncut otherBehind uncut, ends]
        exact .inr (.inl ⟨steps, rfl, rfl⟩)
    | offText position =>
        exact absurd ends (attempt_ne_off_text limit (Int.natCast_nonneg start) position)
    | cut steps =>
        obtain ⟨spent, cut, counted⟩ := attempt_shift_cut behind ends
        obtain ⟨otherSpent, otherCut, otherCounted⟩ := attempt_shift_cut otherBehind ends
        refine .inr (.inr ⟨spent, otherSpent, cut, otherCut, ?_⟩)
        intro limited
        rw [counted limited, otherCounted limited]
  · intro instructions text limit start steps spans frontless found
    exact search_found_shift frontless found

/-- The first program asks for the front and takes its way around the anchor behind one character as it
does behind two. The second one is found behind a character. -/
theorem attempt_forgets_before_anchor :
    let instructions : Array Instruction :=
      #[.openGroup, .fork 2 4, .anchor .front, .finish, .char (.exactly 'b'), .closeGroup, .finish]
    let text := #['a', 'b', 'c']
    attempt (some 9) instructions (#['x'] ++ text) (1 + 1 : Nat) = .found [⟨2, 3⟩, ⟨2, 3⟩] 6 ∧
    (∃ spans : List Span, spans.map (Span.shift 1) = [⟨2, 3⟩, ⟨2, 3⟩] ∧
      attempt (some 9) instructions (#['y', 'z'] ++ text) (2 + 1 : Nat) =
        .found (spans.map (Span.shift 2)) 6) ∧
    ∃ own counted, attempt none #[.char (.exactly 'b'), .finish] (text.drop 1) (0 : Nat) =
      .found own counted ∧ [⟨1, 2⟩] = own.map (Span.shift 1) := by
  intro instructions text
  have found : attempt (some 9) instructions (#['x'] ++ text) (1 + 1 : Nat) =
      .found [⟨2, 3⟩, ⟨2, 3⟩] 6 := rfl
  refine ⟨found, ?_, ?_⟩
  · rcases attempt_forgets_before.1 instructions #['x'] #['y', 'z'] text 1 (some 9)
      (.inr ⟨by decide, by decide⟩) with ⟨spans, steps, here, there⟩ | ⟨steps, missed, -⟩ |
      ⟨steps, -, cut, -⟩
    · obtain ⟨same, rfl⟩ := Outcome.found.inj (found.symm.trans here)
      exact ⟨spans, same.symm, there⟩
    · exact absurd (found.symm.trans missed) nofun
    · exact absurd (found.symm.trans cut) nofun
  · exact attempt_forgets_before.2 #[.char (.exactly 'b'), .finish] text none 1 _ _ (by simp) rfl

end Machine

end RegexMachine
