import RegexMachine.Proofs.Assembly
import RegexMachine.Proofs.Matcher
import RegexMachine.Proofs.Unlimited

/-!
# Programs match what their trees match

The fragment of a tree is related to the matcher of the tree with nothing assumed about its
surroundings: the fragment may lie anywhere in a program and may be entered with any groups open,
and the code behind it is only known to do what the continuation does. One lemma for each way to
build fragments shows that the code of the whole then does what the matcher of the whole does. The
relation bounds the steps for which the answer of a matcher has to be known; since a round of a loop
takes a step, as many rounds as steps are enough.
-/

namespace RegexMachine

open RegexMachine.Machine

/-! ## Fragments in programs -/

/-- The fragment lies in the program from `place` on, with its distances turned into places. -/
def Placed (instructions : Array Instruction) (place : Nat) (fragment : Fragment) : Prop :=
  ∀ offset instruction, fragment[offset]? = some instruction →
    instructions[place + offset]? = some (instruction.relocate ((place + offset : Nat) : Int))

section

variable {instructions : Array Instruction} {place : Nat}

theorem placed_cons {instruction : Instruction} {fragment : Fragment}
    (placed : Placed instructions place (instruction :: fragment)) :
    instructions[place]? = some (instruction.relocate place) ∧
      Placed instructions (place + 1) fragment := by
  refine ⟨placed 0 instruction rfl, ?_⟩
  intro offset other found
  have moved := placed (offset + 1) other found
  rwa [show place + (offset + 1) = place + 1 + offset by omega] at moved

theorem placed_append {first second : Fragment}
    (placed : Placed instructions place (first ++ second)) :
    Placed instructions place first ∧ Placed instructions (place + first.length) second := by
  constructor
  · intro offset instruction found
    apply placed
    obtain ⟨inside, -⟩ := List.getElem?_eq_some_iff.mp found
    rw [List.getElem?_append_left inside]
    exact found
  · intro offset instruction found
    rw [Nat.add_assoc]
    apply placed
    rw [List.getElem?_append_right (Nat.le_add_right _ _), Nat.add_sub_cancel_left]
    exact found

variable {body first second : Fragment}

theorem placed_or_else (placed : Placed instructions place (first.orElse second)) :
    instructions[place]? =
        some (.fork (place + 1 : Nat) (place + 1 + first.length + 1 : Nat)) ∧
      Placed instructions (place + 1) first ∧
      instructions[place + 1 + first.length]? =
        some (.jump (place + 1 + first.length + 1 + second.length : Nat)) ∧
      Placed instructions (place + 1 + first.length + 1) second := by
  obtain ⟨fork, placedRest⟩ := placed_cons placed
  obtain ⟨placedFirst, placedJump⟩ := placed_append placedRest
  obtain ⟨jump, placedSecond⟩ := placed_cons placedJump
  refine ⟨fork.trans ?_, placedFirst, jump.trans ?_, placedSecond⟩
  · simp only [Instruction.relocate, Option.some.injEq, Instruction.fork.injEq]
    omega
  · simp only [Instruction.relocate, Option.some.injEq, Instruction.jump.injEq]
    omega

theorem placed_optional (placed : Placed instructions place body.optional) :
    instructions[place]? = some (.fork (place + 1 : Nat) (place + 1 + body.length : Nat)) ∧
      Placed instructions (place + 1) body := by
  obtain ⟨fork, placedBody⟩ := placed_cons placed
  refine ⟨fork.trans ?_, placedBody⟩
  simp only [Instruction.relocate, Option.some.injEq, Instruction.fork.injEq]
  omega

theorem placed_star (placed : Placed instructions place body.star) :
    instructions[place]? = some (.fork (place + 1 : Nat) (place + 1 + body.length + 1 : Nat)) ∧
      Placed instructions (place + 1) body ∧
      instructions[place + 1 + body.length]? = some (.jump place) := by
  obtain ⟨fork, placedRest⟩ := placed_cons placed
  obtain ⟨placedBody, placedJump⟩ := placed_append placedRest
  obtain ⟨jump, -⟩ := placed_cons placedJump
  refine ⟨fork.trans ?_, placedBody, jump.trans ?_⟩
  · simp only [Instruction.relocate, Option.some.injEq, Instruction.fork.injEq]
    omega
  · simp only [Instruction.relocate, Option.some.injEq, Instruction.jump.injEq]
    omega

theorem placed_plus (placed : Placed instructions place body.plus) :
    Placed instructions place body ∧
      instructions[place + body.length]? = some (.fork place (place + body.length + 1 : Nat)) := by
  obtain ⟨placedBody, placedFork⟩ := placed_append placed
  obtain ⟨fork, -⟩ := placed_cons placedFork
  refine ⟨placedBody, fork.trans ?_⟩
  simp only [Instruction.relocate, Option.some.injEq, Instruction.fork.injEq]
  omega

theorem placed_group (placed : Placed instructions place body.group) :
    instructions[place]? = some .openGroup ∧ Placed instructions (place + 1) body ∧
      instructions[place + 1 + body.length]? = some .closeGroup := by
  obtain ⟨openGroup, placedRest⟩ := placed_cons placed
  obtain ⟨placedBody, placedClose⟩ := placed_append placedRest
  exact ⟨openGroup, placedBody, (placed_cons placedClose).1⟩

theorem placed_resolve (fragment : Fragment) : Placed fragment.resolve.toArray 0 fragment := by
  intro offset instruction found
  rw [Nat.zero_add, List.getElem?_toArray, Fragment.resolve, List.getElem?_mapIdx, found]
  rfl

/-- The program of a tree is the fragment of the tree with `finish` behind it. -/
theorem placed_of_compile {tree : Tree} {source : List Char} {program : Program}
    (compiled : tree.compile source = .ok program) :
    ∃ fragment, tree.assemble = .ok fragment ∧ Placed program.instructions 0 fragment ∧
      program.instructions[0 + fragment.length]? = some .finish := by
  obtain ⟨fragment, assembled, instructions⟩ := instructions_of_compile compiled
  obtain ⟨placed, placedFinish⟩ := placed_append (placed_resolve (fragment ++ [.finish]))
  rw [← instructions] at placed placedFinish
  exact ⟨fragment, assembled, placed, (placed_cons placedFinish).1⟩

theorem fate_placed {instruction : Instruction} (found : instructions[place]? = some instruction)
    (text : Array Char) (position : Int) (opened : List Int) (closed : Array Span) :
    (⟨place, position, opened, closed⟩ : Path).fate instructions text =
      (⟨place, position, opened, closed⟩ : Path).meet text instruction := by
  simp only [Path.fate, fetch_nat_cast, found]

/-- What becomes of a path that is to take a character. -/
theorem fate_char {test : CharTest}
    (found : instructions[place]? = some (.char test)) (text : Array Char) (position : Nat)
    (opened : List Int) (closed : Array Span) :
    (⟨place, position, opened, closed⟩ : Path).fate instructions text =
      match text[position]? with
      | some c =>
          if test.accepts c then .goes ⟨(place + 1 : Nat), (position + 1 : Nat), opened, closed⟩
          else .halts .exhausted
      | none => .halts .exhausted := by
  rw [fate_placed found, Path.meet, Path.take]
  simp only [Indexing.item_nat_cast]
  cases read : text[position]? with
  | none =>
      have past := Array.getElem?_eq_none_iff.mp read
      rw [if_neg (by omega)]
  | some c =>
      obtain ⟨before, -⟩ := Array.getElem?_eq_some_iff.mp read
      rw [if_pos (by omega)]
      rfl

end

/-! ## Answers and paths -/

def Verdict.halt : Verdict → Halt
  | matched stop captures => .matched stop captures
  | failed => .exhausted

theorem halt_injective {left right : Verdict} (same : left.halt = right.halt) : left = right := by
  cases left with
  | matched stop captures =>
      cases right with
      | matched otherStop otherCaptures =>
          obtain ⟨sameStop, rfl⟩ := Halt.matched.inj same
          rw [Int.ofNat.inj sameStop]
      | failed => contradiction
  | failed =>
      cases right with
      | matched otherStop otherCaptures => contradiction
      | failed => rfl

/-- The answer is what exploring the path comes to, and it is known if that takes no more than
`bound` steps. -/
structure Settles (instructions : Array Instruction) (text : Array Char) (bound : Nat) (path : Path)
    (answer : Answer) : Prop where
  explored : ∀ verdict, answer = some verdict →
    ∃ steps, Explores instructions text path steps verdict.halt
  known : ∀ steps halt, steps ≤ bound → Explores instructions text path steps halt →
    ∃ verdict, answer = some verdict ∧ verdict.halt = halt

section

variable {instructions : Array Instruction} {text : Array Char} {bound : Nat} {path : Path}

theorem settles_weaken {more : Nat} {answer : Answer} (fewer : bound ≤ more)
    (settles : Settles instructions text more path answer) :
    Settles instructions text bound path answer where
  explored := settles.explored
  known := fun steps halt within => settles.known steps halt (Nat.le_trans within fewer)

theorem settles_halts {verdict : Verdict}
    (fate : path.fate instructions text = .halts verdict.halt) :
    Settles instructions text bound path (some verdict) where
  explored := by
    intro same answered
    obtain rfl := Option.some.inj answered
    exact ⟨1, .halts fate⟩
  known := by
    intro steps halt within explored
    exact ⟨verdict, rfl, (explores_unique (.halts fate) explored).2⟩

theorem settles_goes {next : Path} {answer : Answer}
    (fate : path.fate instructions text = .goes next)
    (settles : Settles instructions text bound next answer) :
    Settles instructions text (bound + 1) path answer where
  explored := by
    intro verdict answered
    obtain ⟨steps, rest⟩ := settles.explored verdict answered
    exact ⟨steps + 1, .goes fate rest⟩
  known := by
    intro steps halt within explored
    obtain ⟨fewer, rfl, rest⟩ := explores_goes fate explored
    exact settles.known fewer halt (Nat.le_of_succ_le_succ within) rest

theorem settles_forks {left right : Path} {leftAnswer rightAnswer : Answer}
    (fate : path.fate instructions text = .forks left right)
    (ofLeft : Settles instructions text bound left leftAnswer)
    (ofRight : Settles instructions text bound right rightAnswer) :
    Settles instructions text (bound + 1) path (leftAnswer.orElse rightAnswer) where
  explored := by
    intro verdict answered
    cases leftAnswer with
    | none => contradiction
    | some leftVerdict =>
        obtain ⟨leftSteps, leftExplored⟩ := ofLeft.explored leftVerdict rfl
        cases leftVerdict with
        | matched stop captures =>
            obtain rfl := Option.some.inj answered
            exact ⟨leftSteps + 1, .first fate leftExplored (by intro failed; contradiction)⟩
        | failed =>
            obtain ⟨rightSteps, rightExplored⟩ := ofRight.explored verdict answered
            exact ⟨leftSteps + rightSteps + 1, .second fate leftExplored rightExplored⟩
  known := by
    intro steps halt within explored
    rcases explores_forks fate explored with
      ⟨fewer, rfl, found, ended⟩ | ⟨leftSteps, rightSteps, rfl, failed, rest⟩
    · obtain ⟨verdict, rfl, rfl⟩ := ofLeft.known fewer halt (by omega) found
      cases verdict with
      | matched stop captures => exact ⟨_, rfl, rfl⟩
      | failed => contradiction
    · obtain ⟨leftVerdict, rfl, same⟩ := ofLeft.known leftSteps _ (by omega) failed
      obtain ⟨verdict, rfl, rfl⟩ := ofRight.known rightSteps halt (by omega) rest
      cases leftVerdict with
      | matched stop captures => contradiction
      | failed => exact ⟨verdict, rfl, rfl⟩

end

/-! ## Fragments and matchers -/

/-- From `place` on, with these groups open, the program does what is left to be matched. -/
def Continues (instructions : Array Instruction) (text : Array Char) (bound place : Nat)
    (opened : List Int) (rest : Continuation) : Prop :=
  ∀ (position : Nat) (captures : Array Span),
    Settles instructions text bound ⟨place, position, opened, captures⟩ (rest position captures)

/-- Wherever the fragment lies, the program does from there on what the matcher does. -/
def Implements (text : Array Char) (rounds : Nat) (fragment : Fragment) (matcher : Matcher) : Prop :=
  ∀ instructions place, Placed instructions place fragment →
    ∀ opened rest bound, bound ≤ rounds →
      Continues instructions text bound (place + fragment.length) opened rest →
      Continues instructions text bound place opened (matcher rest)

section

variable {text : Array Char} {rounds : Nat} {body first second : Fragment}
  {matcher firstMatcher secondMatcher : Matcher}

theorem continues_weaken {instructions : Array Instruction} {bound more place : Nat}
    {opened : List Int} {rest : Continuation} (fewer : bound ≤ more)
    (continues : Continues instructions text more place opened rest) :
    Continues instructions text bound place opened rest :=
  fun position captures => settles_weaken fewer (continues position captures)

theorem continues_jump {instructions : Array Instruction} {bound place target : Nat}
    {opened : List Int} {rest : Continuation} (found : instructions[place]? = some (.jump target))
    (continues : Continues instructions text bound target opened rest) :
    Continues instructions text (bound + 1) place opened rest := by
  intro position captures
  refine settles_goes ?_ (continues position captures)
  rw [fate_placed found, Path.meet]

theorem continues_fork {instructions : Array Instruction} {bound place left right : Nat}
    {opened : List Int} {leftRest rightRest : Continuation}
    (found : instructions[place]? = some (.fork left right))
    (ofLeft : Continues instructions text bound left opened leftRest)
    (ofRight : Continues instructions text bound right opened rightRest) :
    Continues instructions text (bound + 1) place opened
      (fun position captures => (leftRest position captures).orElse (rightRest position captures)) := by
  intro position captures
  refine settles_forks ?_ (ofLeft position captures) (ofRight position captures)
  rw [fate_placed found, Path.meet]

theorem implements_skip : Implements text rounds [] .skip := by
  intro instructions place placed opened rest bound within continues
  exact continues

theorem implements_and_then (ofFirst : Implements text rounds first firstMatcher)
    (ofSecond : Implements text rounds second secondMatcher) :
    Implements text rounds (first ++ second) (firstMatcher.andThen secondMatcher) := by
  intro instructions place placed opened rest bound within continues
  obtain ⟨placedFirst, placedSecond⟩ := placed_append placed
  rw [List.length_append, ← Nat.add_assoc] at continues
  have fromSecond := ofSecond _ _ placedSecond opened rest bound within continues
  exact ofFirst _ _ placedFirst opened _ bound within fromSecond

theorem implements_take {test : CharTest} {accepts : Char → Bool}
    (same : ∀ c, test.accepts c = accepts c) :
    Implements text rounds [.char test] (.take text accepts) := by
  intro instructions place placed opened rest bound within continues position captures
  have fate := fate_char (placed_cons placed).1 text position opened captures
  simp only [Matcher.take]
  cases read : text[position]? with
  | none =>
      rw [read] at fate
      exact settles_halts fate
  | some c =>
      simp only [read, same] at fate
      cases accepted : accepts c with
      | false =>
          simp only [accepted] at fate ⊢
          exact settles_halts fate
      | true =>
          simp only [accepted, if_true] at fate ⊢
          have next := continues (position + 1) captures
          exact settles_weaken (Nat.le_succ bound) (settles_goes fate next)

theorem implements_check {anchor : Anchor} {holds : Nat → Bool}
    (same : ∀ (place : Int) (position : Nat) opened captures,
      (⟨place, position, opened, captures⟩ : Path).atAnchor text anchor = holds position) :
    Implements text rounds [.anchor anchor] (.check holds) := by
  intro instructions place placed opened rest bound within continues position captures
  have fate := fate_placed (placed_cons placed).1 text position opened captures
  simp only [Instruction.relocate, Path.meet, same] at fate
  have next := continues position captures
  push_cast [List.length_singleton] at next
  simp only [Matcher.check]
  cases held : holds position with
  | false =>
      rw [held] at fate
      exact settles_halts fate
  | true =>
      rw [held] at fate
      exact settles_weaken (Nat.le_succ bound) (settles_goes fate next)

theorem implements_or_else (ofFirst : Implements text rounds first firstMatcher)
    (ofSecond : Implements text rounds second secondMatcher) :
    Implements text rounds (first.orElse second) (firstMatcher.orElse secondMatcher) := by
  intro instructions place placed opened rest bound within continues
  obtain ⟨fork, placedFirst, jump, placedSecond⟩ := placed_or_else placed
  simp only [Fragment.length_or_else, ← Nat.add_assoc] at continues
  have afterFirst : Continues instructions text bound (place + 1 + first.length) opened rest :=
    continues_weaken (Nat.le_succ bound) (continues_jump jump continues)
  have fromFirst := ofFirst _ _ placedFirst opened rest bound within afterFirst
  have fromSecond := ofSecond _ _ placedSecond opened rest bound within continues
  exact continues_weaken (Nat.le_succ bound) (continues_fork fork fromFirst fromSecond)

theorem implements_optional (ofBody : Implements text rounds body matcher) :
    Implements text rounds body.optional matcher.optional := by
  intro instructions place placed opened rest bound within continues
  obtain ⟨fork, placedBody⟩ := placed_optional placed
  simp only [Fragment.length_optional, ← Nat.add_assoc] at continues
  have fromBody := ofBody _ _ placedBody opened rest bound within continues
  exact continues_weaken (Nat.le_succ bound) (continues_fork fork fromBody continues)

/-- A loop is a fork to its body, from where control comes back to the fork, and to its exit. The
fork takes a step, so there are always as many rounds left as there are steps. -/
theorem continues_loop {instructions : Array Instruction} {head entry exit : Nat}
    {opened : List Int} (found : instructions[head]? = some (.fork entry exit))
    (placed : Placed instructions entry body) (ofBody : Implements text rounds body matcher)
    (back : ∀ bound rest, Continues instructions text bound head opened rest →
      Continues instructions text bound (entry + body.length) opened rest)
    {left bound : Nat} {rest : Continuation} (enough : bound ≤ left) (few : left ≤ rounds)
    (continues : Continues instructions text bound exit opened rest) :
    Continues instructions text bound head opened (matcher.star left rest) := by
  induction left generalizing bound with
  | zero =>
      intro position captures
      refine ⟨by intro verdict answered; contradiction, ?_⟩
      intro steps halt within explored
      -- no round is left for no step, and nothing is explored in no step
      have positive := explores_steps_positive explored
      omega
  | succ left induction =>
      -- the step of the fork pays for the round
      have onwards : Continues instructions text (bound - 1) exit opened rest :=
        continues_weaken (Nat.sub_le bound 1) continues
      have again := induction (by omega) (by omega) onwards
      have fromBody := ofBody _ _ placed opened _ (bound - 1) (by omega) (back _ _ again)
      apply continues_weaken (show bound ≤ bound - 1 + 1 by omega)
      exact continues_fork found fromBody onwards

theorem implements_star (ofBody : Implements text rounds body matcher) :
    Implements text rounds body.star (matcher.star rounds) := by
  intro instructions place placed opened rest bound within continues
  obtain ⟨fork, placedBody, jump⟩ := placed_star placed
  simp only [Fragment.length_star, ← Nat.add_assoc] at continues
  refine continues_loop fork placedBody ofBody ?_ within (Nat.le_refl rounds) continues
  intro bound rest atHead
  exact continues_weaken (Nat.le_succ bound) (continues_jump jump atHead)

theorem implements_plus (ofBody : Implements text rounds body matcher) :
    Implements text rounds body.plus (matcher.plus rounds) := by
  intro instructions place placed opened rest bound within continues
  obtain ⟨placedBody, fork⟩ := placed_plus placed
  rw [Fragment.length_plus, ← Nat.add_assoc] at continues
  have afterBody : Continues instructions text bound (place + body.length) opened
      (matcher.star rounds rest) :=
    continues_loop fork placedBody ofBody (fun bound rest atHead => atHead) within
      (Nat.le_refl rounds) continues
  exact ofBody _ _ placedBody opened _ bound within afterBody

theorem implements_copies (ofBody : Implements text rounds body matcher) (count : Nat) :
    Implements text rounds (List.replicate count body).flatten (matcher.copies count) := by
  induction count with
  | zero => exact implements_skip
  | succ count induction =>
      rw [List.replicate_succ, List.flatten_cons]
      exact implements_and_then ofBody induction

theorem implements_range (ofBody : Implements text rounds body matcher) (least most : Int) :
    Implements text rounds (body.range least most) (matcher.range least most) := by
  unfold Fragment.range Matcher.range
  apply implements_and_then
  · exact implements_copies ofBody _
  · exact implements_copies (implements_optional ofBody) _

theorem implements_group (ofBody : Implements text rounds body matcher) :
    Implements text rounds body.group matcher.group := by
  intro instructions place placed opened rest bound within continues position captures
  obtain ⟨openGroup, placedBody, closeGroup⟩ := placed_group placed
  simp only [Fragment.length_group, ← Nat.add_assoc] at continues
  have afterBody : Continues instructions text bound (place + 1 + body.length) (position :: opened)
      (fun stop captures => rest stop (captures.push ⟨position, stop⟩)) := by
    intro stop captures
    apply settles_weaken (Nat.le_succ bound)
    refine settles_goes ?_ (continues stop (captures.push ⟨position, stop⟩))
    rw [fate_placed closeGroup]
    push_cast
    rfl
  have fromBody := ofBody _ _ placedBody (position :: opened) _ bound within afterBody
  apply settles_weaken (Nat.le_succ bound)
  refine settles_goes ?_ (fromBody position captures)
  rw [fate_placed openGroup]
  push_cast
  rfl

theorem implements_anchored (ofBody : Implements text rounds body matcher) (front back : Bool) :
    Implements text rounds (.anchored front body back) (.anchored text front matcher back) := by
  unfold Fragment.anchored Matcher.anchored
  apply implements_and_then
  · apply implements_and_then _ ofBody
    cases front with
    | false => exact implements_skip
    | true =>
        apply implements_check
        intro place position opened captures
        rw [Bool.eq_iff_iff]
        simp only [Path.atAnchor, beq_iff_eq]
        omega
  · cases back with
    | false => exact implements_skip
    | true =>
        apply implements_check
        intro place position opened captures
        rw [Bool.eq_iff_iff]
        simp only [Path.atAnchor, beq_iff_eq]
        omega

end

/-- The code of a tree does what the tree matches. -/
theorem assembled_implements (text : Array Char) (rounds : Nat) {tree : Tree} {fragment : Fragment}
    (assembled : Assembled tree fragment) :
    Implements text rounds fragment (tree.matcher text rounds) := by
  induction assembled with
  | anchored front back ofBody induction => exact implements_anchored induction front back
  | alternative only induction =>
      rw [Tree.matcher, Tree.matcher_of_any_singleton]
      exact induction
  | choice ofEarlier ofLast first second =>
      rw [Tree.matcher, Tree.matcher_of_any_append, Tree.matcher_of_any_singleton]
      exact implements_or_else first second
  | factor only induction => exact induction
  | sequence ofFactor ofOthers first second =>
      rw [Tree.matcher, Tree.matcherOfAll]
      exact implements_and_then first second
  | group ofBody induction => exact implements_group induction
  | star ofBody induction => exact implements_star induction
  | plus ofBody induction => exact implements_plus induction
  | optional ofBody induction => exact implements_optional induction
  | range ordered ofBody induction => exact implements_range induction _ _
  | @noCopies body least most none same =>
      have noCopies : least.toNat = 0 := by omega
      have noOptional : (most - least).toNat = 0 := by omega
      rw [Tree.matcher, Matcher.range, noCopies, noOptional]
      exact implements_skip
  | any => exact implements_take fun c => rfl
  | oneOf negated members =>
      apply implements_take
      intro c
      rw [CharTest.accepts, CharSet.contains_of_list]
  | char c => exact implements_take fun c => rfl

end RegexMachine
