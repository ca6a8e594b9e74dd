import RegexMachine.Proofs.Assembly
import RegexMachine.Proofs.Reachable

/-!
# Well-formed programs keep control inside

Control moves on to the next place or to a target. The targets of a well-formed program lie inside,
and its last instruction finishes, so that no other instruction has nothing behind it. Whatever
program is well formed, the machine therefore never leaves it, and has no checkpoint outside.
-/

namespace RegexMachine

open RegexMachine.Machine

section

variable {program : Program}

theorem next_inside {pc : Int} {instruction : Instruction} (valid : program.validate = .ok ())
    (fetched : fetch program.instructions pc = some instruction) (unfinished : instruction ≠ .finish) :
    0 ≤ pc + 1 ∧ pc + 1 < program.size := by
  obtain ⟨finished, -⟩ := (validate_ok_iff program).mp valid
  obtain ⟨nonnegative, found⟩ := fetch_eq_some_iff.mp fetched
  have inside := fetch_ne_none_iff.mp (Option.ne_none_iff_exists'.mpr ⟨instruction, fetched⟩)
  have notLast : pc.toNat ≠ program.size - 1 := by
    intro last
    rw [Array.back?_eq_getElem?, ← Program.size, ← last, found] at finished
    exact unfinished (Option.some.inj finished)
  unfold Program.size at notLast ⊢
  omega

theorem target_inside {pc target : Int} {instruction : Instruction}
    (valid : program.validate = .ok ())
    (fetched : fetch program.instructions pc = some instruction)
    (among : target ∈ instruction.targets) : 0 ≤ target ∧ target < program.size := by
  obtain ⟨-, found⟩ := fetch_eq_some_iff.mp fetched
  exact ((validate_ok_iff program).mp valid).2 instruction (Array.mem_of_getElem? found) target among

/-- One step of a path does not lead out of a well-formed program. -/
theorem inherited_inside (valid : program.validate = .ok ()) (text : Array Char) :
    Path.Inherited program.instructions text fun path => 0 ≤ path.pc ∧ path.pc < program.size := by
  intro path next becomes inside
  obtain ⟨instruction, fetched, ⟨behind, unfinished, -⟩ | ⟨among, -⟩⟩ := becomes_cases becomes
  · rw [behind]
    exact next_inside valid fetched unfinished
  · exact target_inside valid fetched among

theorem reachable_inside (valid : program.validate = .ok ()) {text : Array Char} {start : Int}
    {state : State} (reachable : Reachable program.instructions text start state) :
    (0 ≤ state.pc ∧ state.pc < program.size) ∧
      ∀ checkpoint ∈ state.checkpoints, 0 ≤ checkpoint.resume ∧ checkpoint.resume < program.size := by
  have some : 0 < program.size := by
    obtain ⟨finished, -⟩ := (validate_ok_iff program).mp valid
    exact Array.size_pos_iff.mpr (by rintro none; simp [none] at finished)
  obtain ⟨path, waiting, rfl, ofPath, ofWaiting⟩ :=
    inherited_of_reachable (inherited_inside valid text) ⟨Int.le_refl 0, Int.ofNat_lt.mpr some⟩
      reachable
  refine ⟨ofPath, ?_⟩
  intro checkpoint member
  obtain ⟨waits, isWaiting, rfl⟩ := List.mem_map.mp member
  exact ofWaiting waits isWaiting

/-- How the machine can halt if it does not leave the program. -/
theorem reachable_halts {instructions : Array Instruction} {text : Array Char} {start : Nat}
    {state : State} {halt : Halt} (reachable : Reachable instructions text start state)
    (turn : step instructions text state = .halted halt) (fetched : fetch instructions state.pc ≠ none) :
    (halt = .matched state.position state.closed ∧ fetch instructions state.pc = some .finish) ∨
      (halt = .exhausted ∧ state.checkpoints = []) ∨
      (halt = .unopened ∧ fetch instructions state.pc = some .closeGroup ∧ state.opened = []) := by
  obtain ⟨path, waiting, rfl, inText, -⟩ := inherited_of_reachable inherited_in_text
    ⟨Int.le_refl _, Int.le_max_left _ _⟩ reachable
  obtain ⟨fate, exhausted⟩ := fate_of_halted turn
  rcases halts_cases fate with failed | ⟨-, outside⟩ | unopened | matched | ⟨offText, -⟩
  · exact .inr (.inl ⟨failed, exhausted failed⟩)
  · exact absurd outside fetched
  · exact .inr (.inr unopened)
  · exact .inl matched
  · rw [offText] at fate
    exact absurd fate (not_off_text_of_in_text (Int.natCast_nonneg start) inText)

end

/-- In a well-formed program control and all checkpoints are always inside. A run halts at `finish`,
with no checkpoint left, or where no group is open to be closed, and else it is cut off. -/
theorem validated_inside {program : Program} (valid : program.validate = .ok ()) (text : Array Char)
    (start : Nat) :
    (∀ state, Reachable program.instructions text start state →
      ((0 ≤ state.pc ∧ state.pc < program.size) ∧
        ∀ checkpoint ∈ state.checkpoints,
          0 ≤ checkpoint.resume ∧ checkpoint.resume < program.size) ∧
      ∀ halt, step program.instructions text state = .halted halt →
        (halt = .matched state.position state.closed ∧
          fetch program.instructions state.pc = some .finish) ∨
        (halt = .exhausted ∧ state.checkpoints = []) ∨
        (halt = .unopened ∧ fetch program.instructions state.pc = some .closeGroup ∧
          state.opened = [])) ∧
    ∀ maxSteps, (∃ steps, attempt maxSteps program.instructions text start = .cut steps) ∨
      ∃ state steps halt, Reachable program.instructions text start state ∧
        step program.instructions text state = .halted halt ∧
        attempt maxSteps program.instructions text start =
          (Progress.halted steps halt).outcome start := by
  refine ⟨?_, attempt_reachable⟩
  intro state reachable
  have inside := reachable_inside valid reachable
  refine ⟨inside, ?_⟩
  intro halt turn
  exact reachable_halts reachable turn (fetch_ne_none_iff.mpr inside.1)

theorem validated_inside_unopened :
    let program : Program := { instructions := #[.fork 2 1, .finish, .closeGroup, .jump 0, .finish] }
    let state : State := { pc := 2, position := 0, checkpoints := [⟨1, 0, [], 0⟩] }
    program.validate = .ok () ∧ Reachable program.instructions #['a'] (0 : Nat) state ∧
      step program.instructions #['a'] state = .halted .unopened ∧
      (∀ checkpoint ∈ state.checkpoints, 0 ≤ checkpoint.resume ∧ checkpoint.resume < program.size) ∧
      state.opened = [] := by
  intro program state
  have valid : program.validate = .ok () := rfl
  have reachable : Reachable program.instructions #['a'] (0 : Nat) state := .step .initial rfl
  have turn : step program.instructions #['a'] state = .halted .unopened := rfl
  obtain ⟨⟨-, inside⟩, halts⟩ := (validated_inside valid #['a'] 0).1 state reachable
  refine ⟨valid, reachable, turn, inside, ?_⟩
  rcases halts .unopened turn with ⟨matched, -⟩ | ⟨exhausted, -⟩ | ⟨-, -, opened⟩
  · contradiction
  · contradiction
  · exact opened

end RegexMachine
