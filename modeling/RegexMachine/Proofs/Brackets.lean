import RegexMachine.Proofs.Reachable
import RegexMachine.Proofs.Simulation

/-!
# Brackets in compiled programs

Whatever way control takes through the program of a tree, the place it has come to tells how many
groups are open: as many as are opened and not closed by the instructions listed before it. Each
fragment closes what it opens and nothing else, and its targets lie as deep in brackets as the
instructions that name them, so that control neither jumps into a pair of brackets nor out of one.
-/

namespace RegexMachine

open RegexMachine.Machine

/-! ## How deep a place lies -/

/-- The groups that are opened by the instructions listed before a place, less those closed. -/
def nesting (instructions : Array Instruction) (place : Int) : Int :=
  let before := instructions.toList.take place.toNat
  (before.count .openGroup : Int) - before.count .closeGroup

section

variable {instructions : Array Instruction}

theorem nesting_zero : nesting instructions 0 = 0 := rfl

theorem nesting_succ {place : Nat} {instruction : Instruction}
    (found : instructions[place]? = some instruction) :
    nesting instructions ((place + 1 : Nat) : Int) =
      nesting instructions place + instruction.deepens := by
  rw [← Array.getElem?_toList] at found
  simp only [nesting, Int.toNat_natCast, List.take_add_one, found, Option.toList_some,
    List.count_append]
  cases instruction <;> simp [Instruction.deepens] <;> omega

/-- From one place to another the brackets are balanced, and the targets lie as deep as the
instructions that name them. -/
structure Level (instructions : Array Instruction) (first last : Nat) : Prop where
  same : nesting instructions last = nesting instructions first
  floor : ∀ place : Nat, first ≤ place → place ≤ last →
    nesting instructions first ≤ nesting instructions place
  steady : ∀ (place : Nat) (instruction : Instruction), first ≤ place → place < last →
    instructions[place]? = some instruction →
      ∀ target ∈ instruction.targets, nesting instructions target = nesting instructions place

theorem level_self (place : Nat) : Level instructions place place where
  same := rfl
  floor := by
    intro other after before
    rw [Nat.le_antisymm after before]
  steady := by
    intro other instruction after before
    omega

theorem level_trans {first middle last : Nat} (before : Level instructions first middle)
    (behind : Level instructions middle last) : Level instructions first last where
  same := behind.same.trans before.same
  floor := by
    intro place afterFirst beforeLast
    rcases Nat.le_total place middle with inFirst | inSecond
    · exact before.floor place afterFirst inFirst
    · rw [← before.same]
      exact behind.floor place inSecond beforeLast
  steady := by
    intro place instruction afterFirst beforeLast
    rcases Nat.lt_or_ge place middle with inFirst | inSecond
    · exact before.steady place instruction afterFirst inFirst
    · exact behind.steady place instruction inSecond beforeLast

/-- One instruction that is no bracket. -/
theorem level_single {place : Nat} {instruction : Instruction}
    (found : instructions[place]? = some instruction) (plain : instruction.deepens = 0)
    (steady : ∀ target ∈ instruction.targets,
      nesting instructions target = nesting instructions place) :
    Level instructions place (place + 1) := by
  have same := nesting_succ found
  rw [plain, Int.add_zero] at same
  refine ⟨same, ?_, ?_⟩
  · intro other after before
    rcases Nat.eq_or_lt_of_le after with rfl | behind
    · exact Int.le_refl _
    · obtain rfl := Nat.le_antisymm before behind
      exact Int.le_of_eq same.symm
  · intro other instruction' after before found'
    obtain rfl := Nat.le_antisymm after (Nat.le_of_lt_succ before)
    obtain rfl := Option.some.inj (found.symm.trans found')
    exact steady

theorem level_brackets {place last : Nat} (opens : instructions[place]? = some .openGroup)
    (closes : instructions[last]? = some .closeGroup) (inside : Level instructions (place + 1) last) :
    Level instructions place (last + 1) := by
  have deeper := nesting_succ opens
  have shallower := nesting_succ closes
  have same := inside.same
  simp only [Instruction.deepens] at deeper shallower
  refine ⟨by omega, ?_, ?_⟩
  · intro other after before
    rcases Nat.eq_or_lt_of_le after with rfl | afterOpen
    · exact Int.le_refl _
    · rcases Nat.eq_or_lt_of_le before with rfl | beforeEnd
      · omega
      · have floor := inside.floor other afterOpen (Nat.le_of_lt_succ beforeEnd)
        omega
  · intro other instruction after before found
    rcases Nat.eq_or_lt_of_le after with rfl | afterOpen
    · obtain rfl := Option.some.inj (opens.symm.trans found)
      nofun
    · rcases Nat.eq_or_lt_of_le (Nat.le_of_lt_succ before) with rfl | beforeEnd
      · obtain rfl := Option.some.inj (closes.symm.trans found)
        nofun
      · exact inside.steady other instruction afterOpen beforeEnd found

end

/-! ## Fragments -/

def Fragment.Steady (fragment : Fragment) : Prop :=
  ∀ (instructions : Array Instruction) (place : Nat), Placed instructions place fragment →
    Level instructions place (place + fragment.length)

section

variable {body first second : Fragment}

theorem steady_nil : Fragment.Steady [] :=
  fun _ place _ => level_self place

theorem steady_append (ofFirst : first.Steady) (ofSecond : second.Steady) :
    Fragment.Steady (first ++ second) := by
  intro instructions place placed
  obtain ⟨placedFirst, placedSecond⟩ := placed_append placed
  rw [List.length_append, ← Nat.add_assoc]
  exact level_trans (ofFirst _ _ placedFirst) (ofSecond _ _ placedSecond)

theorem steady_plain {instruction : Instruction} (still : instruction.targets = [])
    (plain : ∀ offset, (instruction.relocate offset).deepens = 0) :
    Fragment.Steady [instruction] := by
  intro instructions place placed
  refine level_single (placed_cons placed).1 (plain _) ?_
  rw [Instruction.targets_relocate, still]
  nofun

theorem level_fork {instructions : Array Instruction} {place left right : Nat}
    (found : instructions[place]? = some (.fork left right))
    (sameLeft : nesting instructions left = nesting instructions place)
    (sameRight : nesting instructions right = nesting instructions place) :
    Level instructions place (place + 1) := by
  refine level_single found rfl ?_
  exact List.forall_mem_cons.mpr ⟨sameLeft, List.forall_mem_singleton.mpr sameRight⟩

theorem level_jump {instructions : Array Instruction} {place target : Nat}
    (found : instructions[place]? = some (.jump target))
    (same : nesting instructions target = nesting instructions place) :
    Level instructions place (place + 1) :=
  level_single found rfl (List.forall_mem_singleton.mpr same)

theorem nesting_behind {instructions : Array Instruction} {place : Nat} {instruction : Instruction}
    (found : instructions[place]? = some instruction) (plain : instruction.deepens = 0) :
    nesting instructions ((place + 1 : Nat) : Int) = nesting instructions place := by
  rw [nesting_succ found, plain, Int.add_zero]

theorem steady_optional (ofBody : body.Steady) : body.optional.Steady := by
  intro instructions place placed
  obtain ⟨fork, placedBody⟩ := placed_optional placed
  have inBody := ofBody _ _ placedBody
  have behindFork := nesting_behind fork rfl
  simp only [Fragment.length_optional, ← Nat.add_assoc]
  exact level_trans (level_fork fork behindFork (inBody.same.trans behindFork)) inBody

theorem steady_star (ofBody : body.Steady) : body.star.Steady := by
  intro instructions place placed
  obtain ⟨fork, placedBody, jump⟩ := placed_star placed
  have inBody := ofBody _ _ placedBody
  have behindFork := nesting_behind fork rfl
  have behindJump := nesting_behind jump rfl
  have atJump := inBody.same.trans behindFork
  simp only [Fragment.length_star, ← Nat.add_assoc]
  have ofFork := level_fork fork behindFork (behindJump.trans atJump)
  exact level_trans ofFork (level_trans inBody (level_jump jump atJump.symm))

theorem steady_plus (ofBody : body.Steady) : body.plus.Steady := by
  intro instructions place placed
  obtain ⟨placedBody, fork⟩ := placed_plus placed
  have inBody := ofBody _ _ placedBody
  rw [Fragment.length_plus, ← Nat.add_assoc]
  exact level_trans inBody (level_fork fork inBody.same.symm (nesting_behind fork rfl))

theorem steady_or_else (ofFirst : first.Steady) (ofSecond : second.Steady) :
    (first.orElse second).Steady := by
  intro instructions place placed
  obtain ⟨fork, placedFirst, jump, placedSecond⟩ := placed_or_else placed
  have inFirst := ofFirst _ _ placedFirst
  have inSecond := ofSecond _ _ placedSecond
  have behindFork := nesting_behind fork rfl
  have behindJump := nesting_behind jump rfl
  have atJump := inFirst.same.trans behindFork
  simp only [Fragment.length_or_else, ← Nat.add_assoc]
  have ofFork := level_fork fork behindFork (behindJump.trans atJump)
  have ofJump := level_jump jump (inSecond.same.trans behindJump)
  exact level_trans ofFork (level_trans inFirst (level_trans ofJump inSecond))

theorem steady_group (ofBody : body.Steady) : body.group.Steady := by
  intro instructions place placed
  obtain ⟨openGroup, placedBody, closeGroup⟩ := placed_group placed
  simp only [Fragment.length_group, ← Nat.add_assoc]
  exact level_brackets openGroup closeGroup (ofBody _ _ placedBody)

theorem steady_copies (ofBody : body.Steady) (count : Nat) :
    Fragment.Steady (List.replicate count body).flatten := by
  induction count with
  | zero => exact steady_nil
  | succ count induction =>
      rw [List.replicate_succ, List.flatten_cons]
      exact steady_append ofBody induction

theorem steady_range (ofBody : body.Steady) (least most : Int) : (body.range least most).Steady :=
  steady_append (steady_copies ofBody _) (steady_copies (steady_optional ofBody) _)

theorem steady_anchored (ofBody : body.Steady) (front back : Bool) :
    (Fragment.anchored front body back).Steady := by
  refine steady_append (steady_append ?_ ofBody) ?_
  · cases front with
    | false => exact steady_nil
    | true => exact steady_plain rfl fun offset => rfl
  · cases back with
    | false => exact steady_nil
    | true => exact steady_plain rfl fun offset => rfl

end

theorem assembled_steady {tree : Tree} {fragment : Fragment} (assembled : Assembled tree fragment) :
    fragment.Steady := by
  induction assembled with
  | anchored front back ofBody induction => exact steady_anchored induction front back
  | alternative only induction => exact induction
  | choice ofEarlier ofLast first second => exact steady_or_else first second
  | factor only induction => exact induction
  | sequence ofFactor ofOthers first second => exact steady_append first second
  | group ofBody induction => exact steady_group induction
  | star ofBody induction => exact steady_star induction
  | plus ofBody induction => exact steady_plus induction
  | optional ofBody induction => exact steady_optional induction
  | range ordered ofBody induction => exact steady_range induction _ _
  | noCopies none same => exact steady_nil
  | any => exact steady_plain rfl fun offset => rfl
  | oneOf negated members => exact steady_plain rfl fun offset => rfl
  | char c => exact steady_plain rfl fun offset => rfl

/-! ## Runs -/

section

variable {instructions : Array Instruction} {text : Array Char} {start : Int}

theorem nesting_next {pc : Int} {instruction : Instruction}
    (fetched : fetch instructions pc = some instruction) :
    nesting instructions (pc + 1) = nesting instructions pc + instruction.deepens := by
  obtain ⟨nonnegative, found⟩ := fetch_eq_some_iff.mp fetched
  obtain ⟨place, rfl⟩ := Int.eq_ofNat_of_zero_le nonnegative
  exact nesting_succ found

theorem nesting_target (level : Level instructions 0 instructions.size) {pc target : Int}
    {instruction : Instruction} (fetched : fetch instructions pc = some instruction)
    (among : target ∈ instruction.targets) :
    nesting instructions target = nesting instructions pc := by
  obtain ⟨nonnegative, found⟩ := fetch_eq_some_iff.mp fetched
  obtain ⟨place, rfl⟩ := Int.eq_ofNat_of_zero_le nonnegative
  obtain ⟨inside, -⟩ := Array.getElem?_eq_some_iff.mp found
  exact level.steady place instruction (Nat.zero_le place) inside found target among

/-- One step of a path opens and closes as many groups as the place behind lies deeper. -/
theorem inherited_nesting (level : Level instructions 0 instructions.size) :
    Path.Inherited instructions text fun path =>
      (path.opened.length : Int) = nesting instructions path.pc := by
  intro path next becomes balanced
  obtain ⟨instruction, fetched, ⟨behind, -, deepens⟩ | ⟨among, same⟩⟩ := becomes_cases becomes
  · rw [behind, nesting_next fetched, deepens, balanced]
  · rw [nesting_target level fetched among, same, balanced]

theorem reachable_nesting (level : Level instructions 0 instructions.size) {state : State}
    (reachable : Reachable instructions text start state) :
    (state.opened.length : Int) = nesting instructions state.pc ∧
      ∀ checkpoint ∈ state.checkpoints,
        (checkpoint.opened.length : Int) = nesting instructions checkpoint.resume := by
  obtain ⟨path, waiting, rfl, ofPath, ofWaiting⟩ :=
    inherited_of_reachable (inherited_nesting level) rfl reachable
  refine ⟨ofPath, ?_⟩
  intro checkpoint member
  obtain ⟨waits, isWaiting, rfl⟩ := List.mem_map.mp member
  exact ofWaiting waits isWaiting

/-- A bracket that closes a group lies inside of one. -/
theorem nesting_close_group (level : Level instructions 0 instructions.size) {pc : Int}
    (fetched : fetch instructions pc = some .closeGroup) : 0 < nesting instructions pc := by
  have behind := nesting_next fetched
  obtain ⟨nonnegative, found⟩ := fetch_eq_some_iff.mp fetched
  obtain ⟨place, rfl⟩ := Int.eq_ofNat_of_zero_le nonnegative
  obtain ⟨inside, -⟩ := Array.getElem?_eq_some_iff.mp found
  have floor := level.floor (place + 1) (Nat.zero_le _) inside
  simp only [Instruction.deepens] at behind
  push_cast [nesting_zero] at floor
  omega

end

/-! ## Compiled programs -/

section

variable {tree : Tree} {source : List Char} {program : Program}

theorem compiled_level (compiled : tree.compile source = .ok program) :
    Level program.instructions 0 program.instructions.size := by
  obtain ⟨fragment, assembled, instructions⟩ := instructions_of_compile compiled
  have steady : Fragment.Steady (fragment ++ [.finish]) :=
    steady_append (assembled_steady (assembled_of_assemble tree assembled))
      (steady_plain rfl fun offset => rfl)
  have level := steady _ 0 (placed_resolve _)
  rwa [← Fragment.length_resolve, ← List.size_toArray, ← instructions, Nat.zero_add] at level

theorem nesting_finish (compiled : tree.compile source = .ok program) {pc : Int}
    (fetched : fetch program.instructions pc = some .finish) :
    nesting program.instructions pc = 0 := by
  have behind := nesting_next fetched
  obtain ⟨nonnegative, found⟩ := fetch_eq_some_iff.mp fetched
  obtain ⟨place, rfl⟩ := Int.eq_ofNat_of_zero_le nonnegative
  have same := (compiled_level compiled).same
  rw [← Program.size, ← (finish_of_compile compiled place).mp found] at same
  push_cast [nesting_zero] at same
  rw [same] at behind
  exact (behind.trans (Int.add_zero _)).symm

end

/-- Wherever a compiled program is, as many groups are open as the brackets before that place say, and
no path that waits has others open. No group is closed before it is opened, and none is left open. -/
theorem compiled_brackets {tree : Tree} {source : List Char} {program : Program}
    (compiled : tree.compile source = .ok program) {text : Array Char} {start : Int} {state : State}
    (reachable : Reachable program.instructions text start state) :
    (state.opened.length : Int) = nesting program.instructions state.pc ∧
    (∀ checkpoint ∈ state.checkpoints,
      (checkpoint.opened.length : Int) = nesting program.instructions checkpoint.resume) ∧
    (fetch program.instructions state.pc = some .closeGroup → state.opened ≠ []) ∧
    (fetch program.instructions state.pc = some .finish → state.opened = []) := by
  obtain ⟨ofState, ofCheckpoints⟩ := reachable_nesting (compiled_level compiled) reachable
  refine ⟨ofState, ofCheckpoints, ?_, ?_⟩
  · intro closes none
    have inside := nesting_close_group (compiled_level compiled) closes
    rw [← ofState, none] at inside
    contradiction
  · intro finishes
    rw [nesting_finish compiled finishes] at ofState
    exact List.eq_nil_of_length_eq_zero (Int.ofNat.inj ofState)

theorem compiled_brackets_starred_group :
    let tree : Tree := .star (.group (.char 'a'))
    let program : Program :=
      { instructions := #[.fork 1 5, .openGroup, .char (.exactly 'a'), .closeGroup, .jump 0, .finish]
        groups := 1 }
    let state : State :=
      { pc := 3, position := 1, opened := [0], checkpoints := [⟨5, 0, [], 0⟩] }
    tree.compile = .ok program ∧ Reachable program.instructions #['a'] 0 state ∧
      nesting program.instructions 3 = 1 ∧ nesting program.instructions 5 = 0 ∧
      state.opened ≠ [] := by
  intro tree program state
  have compiled : tree.compile = .ok program := rfl
  have reachable : Reachable program.instructions #['a'] 0 state :=
    .step (.step (.step .initial rfl) rfl) rfl
  obtain ⟨ofState, ofCheckpoints, closing, -⟩ := compiled_brackets compiled reachable
  exact ⟨compiled, reachable, ofState.symm, (ofCheckpoints _ List.mem_cons_self).symm, closing rfl⟩

end RegexMachine
