import RegexMachine.Proofs.Attempts
import RegexMachine.Proofs.Reachable

/-!
# The first alternative that matches

In the program of a choice every alternative runs as it does alone. It lies elsewhere, with other
alternatives waiting, but its distances are the same, and control leaves it only at its end. What is
behind it there are the jumps that join the alternatives, and the end of the program: where it matches
alone, the choice is decided. An exploration therefore comes to the same in both places, and takes no
more steps alone.
-/

namespace RegexMachine

open RegexMachine.Machine

/-! ## Moving fragments -/

namespace Machine

def Path.moved (distance : Int) (path : Path) : Path := { path with pc := path.pc + distance }

def Fate.moved (distance : Int) : Fate → Fate
  | .halts halt => .halts halt
  | .goes next => .goes (next.moved distance)
  | .forks first second => .forks (first.moved distance) (second.moved distance)

theorem meet_moved (text : Array Char) (path : Path) (distance : Int) (instruction : Instruction) :
    (path.moved distance).meet text (instruction.relocate distance) =
      (path.meet text instruction).moved distance := by
  have behind : path.pc + distance + 1 = path.pc + 1 + distance := Int.add_right_comm _ _ _
  cases instruction with
  | char test =>
      simp only [Instruction.relocate, Path.meet, Path.take, Path.moved, behind]
      split
      · split
        · rfl
        · split <;> rfl
      · rfl
  | jump target => rfl
  | fork first second => rfl
  | anchor place =>
      have same : (path.moved distance).atAnchor text place = path.atAnchor text place := by
        cases place <;> rfl
      simp only [Instruction.relocate, Path.meet, same]
      split
      · simp only [Fate.moved, Path.moved, behind]
      · rfl
  | openGroup => simp only [Instruction.relocate, Path.meet, Fate.moved, Path.moved, behind]
  | closeGroup =>
      simp only [Instruction.relocate, Path.meet, Path.close, Path.moved]
      split
      · rfl
      · simp only [Fate.moved, Path.moved, behind]
  | finish => rfl

end Machine

section

variable {instructions others : Array Instruction} {text : Array Char} {fragment : Fragment}
  {place otherPlace : Nat} {path next : Path}

/-- Where control is in the fragment, there is an instruction of the fragment. -/
theorem fetch_placed (placed : Placed instructions place fragment) {offset : Nat}
    (inside : offset < fragment.length) :
    fetch instructions ((place + offset : Nat) : Int) =
      some (fragment[offset].relocate ((place + offset : Nat) : Int)) := by
  rw [fetch_nat_cast]
  exact placed offset _ (List.getElem?_eq_getElem inside)

theorem fate_moved (placed : Placed instructions place fragment)
    (otherPlaced : Placed others otherPlace fragment) {offset : Nat}
    (inside : offset < fragment.length) (here : path.pc = (place + offset : Nat)) :
    (path.moved (otherPlace - place)).fate others text =
      (path.fate instructions text).moved (otherPlace - place) := by
  have there : (path.moved (otherPlace - place)).pc = (otherPlace + offset : Nat) := by
    show path.pc + (otherPlace - place) = _
    omega
  have distance : ((otherPlace + offset : Nat) : Int) =
      (place + offset : Nat) + ((otherPlace : Int) - place) := by omega
  rw [Path.fate, Path.fate, there, here, fetch_placed placed inside, fetch_placed otherPlaced inside,
    distance, ← Instruction.relocate_relocate]
  exact meet_moved text path _ _

/-- A step from a place in the fragment leads to a place in it or directly behind it. -/
theorem becomes_inside (reaches : fragment.Reaches 0 0) (placed : Placed instructions place fragment)
    {offset : Nat} (inside : offset < fragment.length) (here : path.pc = (place + offset : Nat))
    (becomes : path.Becomes instructions text next) :
    ∃ further, further ≤ fragment.length ∧ next.pc = (place + further : Nat) := by
  obtain ⟨instruction, fetched, ⟨behind, -⟩ | ⟨among, -⟩⟩ := becomes_cases becomes
  · exact ⟨offset + 1, inside, by omega⟩
  · rw [here, fetch_placed placed inside] at fetched
    obtain rfl := Option.some.inj fetched
    rw [Instruction.targets_relocate] at among
    obtain ⟨target, relative, moved⟩ := List.mem_map.mp among
    have bounds := reaches offset _ (List.getElem?_eq_getElem inside) target relative
    exact ⟨(offset + target).toNat, by omega, by omega⟩

/-- From this place on there is nothing that could fail, take a character or capture. -/
def Concludes (instructions : Array Instruction) (text : Array Char) (place : Nat) : Prop :=
  ∀ (position : Int) (opened : List Int) (closed : Array Span),
    ∃ steps, Explores instructions text ⟨place, position, opened, closed⟩ steps
      (.matched position closed)

theorem concludes_finish (found : instructions[place]? = some .finish) :
    Concludes instructions text place := by
  intro position opened closed
  refine ⟨1, .halts ?_⟩
  rw [fate_placed found, Path.meet]

theorem concludes_jump {target : Nat} (found : instructions[place]? = some (.jump target))
    (concludes : Concludes instructions text target) : Concludes instructions text place := by
  intro position opened closed
  obtain ⟨steps, rest⟩ := concludes position opened closed
  refine ⟨steps + 1, .goes ?_ rest⟩
  rw [fate_placed found, Path.meet]

/-- With `finish` directly behind it, the fragment comes to the same, and as soon. -/
theorem explores_moved (reaches : fragment.Reaches 0 0) (placed : Placed instructions place fragment)
    (otherPlaced : Placed others otherPlace fragment)
    (concludes : Concludes instructions text (place + fragment.length))
    (finish : others[otherPlace + fragment.length]? = some .finish) {steps offset : Nat} {halt : Halt}
    (inside : offset ≤ fragment.length) (here : path.pc = (place + offset : Nat))
    (explored : Explores instructions text path steps halt) :
    ∃ own, own ≤ steps ∧ Explores others text (path.moved (otherPlace - place)) own halt := by
  induction steps using Nat.strong_induction_on generalizing path offset halt with
  | _ steps induction =>
      rcases Nat.eq_or_lt_of_le inside with rfl | before
      · obtain ⟨pc, position, opened, closed⟩ := path
        obtain rfl : pc = _ := here
        obtain ⟨fewer, last⟩ := concludes position opened closed
        obtain ⟨-, rfl⟩ := explores_unique explored last
        refine ⟨1, explores_steps_positive explored, .halts ?_⟩
        have there : ((place + fragment.length : Nat) : Int) + (otherPlace - place) =
            (otherPlace + fragment.length : Nat) := by omega
        rw [Path.moved, there, fate_placed finish, Path.meet]
      · have moved : (path.moved (otherPlace - place)).fate others text = _ :=
          fate_moved placed otherPlaced before here
        have leads : ∀ next, path.Becomes instructions text next → _ :=
          fun next => becomes_inside reaches placed before here
        cases explored with
        | halts fate =>
            rw [fate] at moved
            exact ⟨1, Nat.le_refl 1, .halts moved⟩
        | @goes _ next steps _ fate rest =>
            rw [fate] at moved
            obtain ⟨further, within, there⟩ := leads next (.goes fate)
            obtain ⟨own, enough, otherRest⟩ :=
              induction steps (Nat.lt_succ_self steps) within there rest
            exact ⟨own + 1, Nat.succ_le_succ enough, .goes moved otherRest⟩
        | @first _ left right steps _ fate found ended =>
            rw [fate] at moved
            obtain ⟨further, within, there⟩ := leads left (.first fate)
            obtain ⟨own, enough, otherFound⟩ :=
              induction steps (Nat.lt_succ_self steps) within there found
            exact ⟨own + 1, Nat.succ_le_succ enough, .first moved otherFound ended⟩
        | @second _ left right leftSteps rightSteps _ fate failed rest =>
            rw [fate] at moved
            obtain ⟨further, within, there⟩ := leads left (.first fate)
            obtain ⟨ownLeft, enoughLeft, otherFailed⟩ :=
              induction leftSteps (by omega) within there failed
            obtain ⟨other, withinOther, thereOther⟩ := leads right (.second fate)
            obtain ⟨ownRight, enoughRight, otherRest⟩ :=
              induction rightSteps (by omega) withinOther thereOther rest
            exact ⟨ownLeft + ownRight + 1, by omega, .second moved otherFailed otherRest⟩

end

/-! ## Choices -/

/-- What the tree's own program returns for an attempt, if it completes within the limit. -/
def Tree.Returns (tree : Tree) (limit : Option Nat) (text : Array Char) (start : Nat)
    (result : Option (List Span)) : Prop :=
  ∃ program, tree.compile = .ok program ∧
    (attempt limit program.instructions text start).result? = some result

/-- The result is that of the first tree with a match, and those before it have none. -/
inductive FirstOf (returns : Tree → Option (List Span) → Prop) :
    List Tree → Option (List Span) → Prop
  | absent : FirstOf returns [] none
  | found {tree others spans} (matched : returns tree (some spans)) :
      FirstOf returns (tree :: others) (some spans)
  | behind {tree others result} (missed : returns tree none) (rest : FirstOf returns others result) :
      FirstOf returns (tree :: others) result

section

variable {returns : Tree → Option (List Span) → Prop} {earlier later : List Tree}
  {result : Option (List Span)}

theorem first_of_singleton {tree : Tree} (own : returns tree result) : FirstOf returns [tree] result := by
  cases result with
  | none => exact .behind own .absent
  | some spans => exact .found own

theorem first_of_append_found {spans : List Span} (found : FirstOf returns earlier (some spans)) :
    FirstOf returns (earlier ++ later) (some spans) := by
  generalize same : some spans = result at found
  induction found with
  | absent => contradiction
  | found matched => exact .found matched
  | behind missed rest induction => exact .behind missed (induction same)

theorem first_of_append_missed (missed : FirstOf returns earlier none)
    (rest : FirstOf returns later result) : FirstOf returns (earlier ++ later) result := by
  generalize same : none = absent at missed
  induction missed with
  | absent => exact rest
  | found matched => contradiction
  | behind missed others induction => exact .behind missed (induction same)

end

section

variable {instructions : Array Instruction} {text : Array Char} {limit : Option Nat} {place start : Nat}

/-- Left alone, the code of a tree comes to what it comes to in front of other code that concludes. -/
theorem returns_of_explores {tree : Tree} {fragment : Fragment} (assembled : Assembled tree fragment)
    (placed : Placed instructions place fragment)
    (concludes : Concludes instructions text (place + fragment.length)) {steps : Nat}
    {verdict : Verdict} (within : ∀ budget ∈ limit, steps ≤ budget)
    (explored : Explores instructions text ⟨place, start, [], #[]⟩ steps verdict.halt) :
    tree.Returns limit text start (verdict.result start) := by
  have whole := assemble_of_assembled assembled
  obtain ⟨program, compiled⟩ := compile_of_assemble whole []
  obtain ⟨same, again, ownPlaced, ownFinish⟩ := placed_of_compile compiled
  obtain rfl := Except.ok.inj (whole.symm.trans again)
  obtain ⟨fewer, enough, alone⟩ := explores_moved (assembled_reaches assembled) placed ownPlaced
    concludes ownFinish (Nat.zero_le fragment.length) rfl explored
  have home : Path.moved ((0 : Nat) - place) ⟨place, start, [], #[]⟩ = { position := start } := by
    simp [Path.moved]
  rw [home] at alone
  refine ⟨program, compiled, ?_⟩
  rw [attempt_of_explores alone fun budget limited => Nat.le_trans enough (within budget limited)]
  exact result_of_outcome fewer start verdict

/-- The joined alternatives come to what the first of them that matches comes to alone. -/
theorem first_of_of_explores {tree : Tree} {fragment : Fragment} (assembled : Assembled tree fragment)
    {alternatives : List Tree} (choice : tree = .choice alternatives)
    (placed : Placed instructions place fragment)
    (concludes : Concludes instructions text (place + fragment.length)) {steps : Nat}
    {verdict : Verdict} (within : ∀ budget ∈ limit, steps ≤ budget)
    (explored : Explores instructions text ⟨place, start, [], #[]⟩ steps verdict.halt) :
    FirstOf (fun alternative => alternative.Returns limit text start) alternatives
      (verdict.result start) := by
  induction assembled generalizing alternatives place steps verdict with
  | alternative only =>
      obtain rfl := Tree.choice.inj choice
      exact first_of_singleton (returns_of_explores only placed concludes within explored)
  | @choice earlier last first second ofEarlier ofLast ofFirst =>
      obtain rfl := Tree.choice.inj choice
      obtain ⟨fork, placedFirst, jump, placedSecond⟩ := placed_or_else placed
      simp only [Fragment.length_or_else, ← Nat.add_assoc] at concludes
      have behindFirst := concludes_jump jump concludes
      have fate := fate_placed fork text start [] #[]
      rw [Path.meet] at fate
      rcases explores_forks fate explored with
        ⟨fewer, rfl, found, ended⟩ | ⟨leftSteps, rightSteps, rfl, failed, rest⟩
      · have fromEarlier := ofFirst rfl placedFirst behindFirst
          (fun budget limited => Nat.le_of_succ_le (within budget limited)) found
        cases verdict with
        | matched stop captures => exact first_of_append_found fromEarlier
        | failed => exact absurd rfl ended
      · have inFirst : ∀ budget ∈ limit, leftSteps ≤ budget := by
          intro budget limited
          have enough := within budget limited
          omega
        have inSecond : ∀ budget ∈ limit, rightSteps ≤ budget := by
          intro budget limited
          have enough := within budget limited
          omega
        have missed : Explores instructions text _ leftSteps Verdict.failed.halt := failed
        apply first_of_append_missed (ofFirst rfl placedFirst behindFirst inFirst missed)
        apply first_of_singleton
        exact returns_of_explores ofLast placedSecond concludes inSecond rest
  | _ => cases choice

end

section

variable {alternatives : List Tree} {text : Array Char} {start : Nat} {result : Option (List Span)}

theorem first_of_of_returns {limit : Option Nat}
    (returns : (Tree.choice alternatives).Returns limit text start result) :
    FirstOf (fun alternative => alternative.Returns limit text start) alternatives result := by
  obtain ⟨program, compiled, returned⟩ := returns
  obtain ⟨fragment, assembled, placed, finish⟩ := placed_of_compile compiled
  obtain ⟨steps, halt, within, explored, ended⟩ := explores_of_uncut (uncut_of_result returned)
  obtain ⟨verdict, -, rfl⟩ := compiled_halt compiled explored
  rw [ended] at returned
  obtain rfl := Option.some.inj ((result_of_outcome steps start verdict).symm.trans returned)
  exact first_of_of_explores (assembled_of_assemble _ assembled) rfl placed
    (concludes_finish finish) within explored

theorem answer_choice (tree : Tree) (others : List Tree) (text : Array Char) (rounds start : Nat) :
    (Tree.choice (tree :: others)).answer text rounds start =
      (tree.answer text rounds start).orElse ((Tree.choice others).answer text rounds start) := rfl

/-- What the first tree with a match returns under a limit of its own, the matchers of all of them
answer in turn. -/
theorem answer_of_first_of
    (first : FirstOf (fun alternative own => ∃ budget,
      alternative.Returns (some budget) text start own) alternatives result) :
    ∃ rounds verdict, (Tree.choice alternatives).answer text rounds start = some verdict ∧
      result = verdict.result start := by
  induction first with
  | absent => exact ⟨0, .failed, rfl, rfl⟩
  | @found tree others spans matched =>
      obtain ⟨budget, program, compiled, returned⟩ := matched
      obtain ⟨verdict, answered, same⟩ := answer_of_result compiled returned
      refine ⟨budget, verdict, ?_, same⟩
      rw [answer_choice, answered]
      cases verdict with
      | matched stop captures => rfl
      | failed => contradiction
  | @behind tree others result missed rest induction =>
      obtain ⟨budget, program, compiled, returned⟩ := missed
      obtain ⟨verdict, answered, same⟩ := answer_of_result compiled returned
      obtain ⟨rounds, other, otherAnswered, rfl⟩ := induction
      refine ⟨max budget rounds, other, ?_, rfl⟩
      rw [answer_choice, answer_of_more_rounds tree text (Nat.le_max_left _ _) answered,
        answer_of_more_rounds _ text (Nat.le_max_right _ _) otherAnswered]
      cases verdict with
      | matched stop captures => contradiction
      | failed => rfl

end

/-- An attempt of a choice returns what the first alternative that matches returns alone, with the
captures of no other one, and within the same limit. Conversely, if the alternatives up to this one
complete under any limits, so does the choice under some limit. -/
theorem choice_returns_first {alternatives : List Tree} (nonempty : alternatives ≠ [])
    (compile : ∀ alternative ∈ alternatives, ∃ program, alternative.compile = .ok program) :
    (∃ program, (Tree.choice alternatives).compile = .ok program) ∧
    ∀ (text : Array Char) (start : Nat),
      (∀ limit result, (Tree.choice alternatives).Returns limit text start result →
        FirstOf (fun alternative own => alternative.Returns limit text start own) alternatives
          result) ∧
      ∀ result,
        FirstOf (fun alternative own => ∃ budget, alternative.Returns (some budget) text start own)
          alternatives result →
        ∃ budget, (Tree.choice alternatives).Returns (some budget) text start result := by
  have assembles : (Tree.choice alternatives).Assembles := by
    apply (assembles_choice_iff alternatives).mpr
    refine ⟨nonempty, ?_⟩
    exact fun alternative member => (compiles_iff alternative []).mp (compile alternative member)
  obtain ⟨program, compiled⟩ := (compiles_iff _ []).mpr assembles
  refine ⟨⟨program, compiled⟩, ?_⟩
  intro text start
  refine ⟨fun limit result => first_of_of_returns, ?_⟩
  intro result first
  obtain ⟨rounds, verdict, answered, rfl⟩ := answer_of_first_of first
  obtain ⟨steps, completed⟩ := attempt_of_answer compiled answered
  refine ⟨steps, program, compiled, ?_⟩
  rw [completed steps (Nat.le_refl steps)]
  exact result_of_outcome steps start verdict

/-- The first alternative captures before it fails, and the last one would match too. -/
theorem choice_returns_first_of_three :
    let alternatives : List Tree :=
      [.sequence [.group (.char 'a'), .char 'b'], .group (.star (.char 'a')), .char 'a']
    let spans : List Span := [⟨0, 2⟩, ⟨0, 2⟩]
    (Tree.choice alternatives).Returns (some 20) #['a', 'a'] 0 (some spans) ∧
      FirstOf (fun alternative => alternative.Returns (some 20) #['a', 'a'] 0) alternatives
        (some spans) ∧
      ∃ budget, (Tree.choice alternatives).Returns (some budget) #['a', 'a'] 0 (some spans) := by
  intro alternatives spans
  have compile : ∀ alternative ∈ alternatives, ∃ program, alternative.compile = .ok program := by
    simp only [alternatives, List.forall_mem_cons]
    exact ⟨⟨_, rfl⟩, ⟨_, rfl⟩, ⟨_, rfl⟩, nofun⟩
  obtain ⟨-, results⟩ := choice_returns_first (List.cons_ne_nil _ _) compile
  have returned : (Tree.choice alternatives).Returns (some 20) #['a', 'a'] 0 (some spans) :=
    ⟨_, rfl, rfl⟩
  obtain ⟨ofChoice, ofFirst⟩ := results #['a', 'a'] 0
  refine ⟨returned, ofChoice (some 20) _ returned, ofFirst _ ?_⟩
  exact .behind ⟨20, _, rfl, rfl⟩ (.found ⟨20, _, rfl, rfl⟩)

end RegexMachine
