import RegexMachine.Proofs.Simulation

/-!
# Captures do not influence matching

The code of a tree is run beside the code of the tree without its groups. Their fragments differ in
length and in all distances, but they have the same forks and tests in the same order, so that paths
can be followed in both: where the first opens or closes a group, the second waits. Nothing reads the
open groups except the instruction that closes one, and in the fragment of a tree this instruction
always finds the group that was opened for it. The relation speaks of explorations of at most `bound`
steps; a loop goes back to its head after at least one step, and so with a smaller bound.
-/

namespace RegexMachine

open RegexMachine.Machine

namespace Tree

mutual

def erase : Tree → Tree
  | anchored front body back => anchored front body.erase back
  | choice alternatives => choice (eraseAll alternatives)
  | sequence factors => sequence (eraseAll factors)
  | group body => body.erase
  | star body => star body.erase
  | plus body => plus body.erase
  | optional body => optional body.erase
  | range body least most => range body.erase least most
  | any => any
  | oneOf negated members => oneOf negated members
  | char c => char c
  | foreign written below => foreign written (eraseAll below)

def eraseAll : List Tree → List Tree
  | [] => []
  | tree :: trees => tree.erase :: eraseAll trees

end

theorem erase_all_concat (trees : List Tree) (last : Tree) :
    eraseAll (trees ++ [last]) = eraseAll trees ++ [last.erase] := by
  induction trees with
  | nil => rfl
  | cons tree trees induction => rw [List.cons_append, eraseAll, eraseAll, induction, List.cons_append]

end Tree

/-! ## Paths of two programs -/

def Machine.Halt.bare : Halt → Halt
  | .matched stop _ => .matched stop #[]
  | .exhausted => .exhausted
  | .strayed => .strayed
  | .unopened => .unopened
  | .offText position => .offText position

theorem bare_eq_exhausted_iff {halt : Halt} : halt.bare = .exhausted ↔ halt = .exhausted := by
  cases halt <;> simp [Halt.bare]

theorem bare_found {start : Int} {steps own : Nat} {halt : Halt} {spans : List Span}
    (found : (Progress.halted steps halt).outcome start = .found spans own) :
    ∃ stop captures, spans = ⟨start, stop⟩ :: captures ∧ steps = own ∧
      ∀ fewer, (Progress.halted fewer halt.bare).outcome start = .found [⟨start, stop⟩] fewer := by
  cases halt with
  | matched stop captures =>
      obtain ⟨rfl, rfl⟩ := Outcome.found.inj found
      exact ⟨stop, captures.toList, rfl, rfl, fun _ => rfl⟩
  | exhausted => contradiction
  | strayed => contradiction
  | unopened => contradiction
  | offText position => contradiction

theorem bare_missed {start : Int} {steps own : Nat} {halt : Halt}
    (missed : (Progress.halted steps halt).outcome start = .missed own) :
    steps = own ∧ ∀ fewer, (Progress.halted fewer halt.bare).outcome start = .missed fewer := by
  cases halt with
  | matched stop captures => contradiction
  | exhausted => exact ⟨Outcome.missed.inj missed, fun _ => rfl⟩
  | strayed => exact ⟨Outcome.missed.inj missed, fun _ => rfl⟩
  | unopened => exact ⟨Outcome.missed.inj missed, fun _ => rfl⟩
  | offText position => contradiction

/-- What exploring the path comes to in at most `bound` steps, exploring the other path in the other
program comes to in no more steps, apart from captures. -/
def Shadows (instructions others : Array Instruction) (text : Array Char) (bound : Nat)
    (path other : Path) : Prop :=
  ∀ steps halt, steps ≤ bound → Explores instructions text path steps halt →
    ∃ fewer, fewer ≤ steps ∧ Explores others text other fewer halt.bare

section

variable {instructions others : Array Instruction} {text : Array Char} {bound : Nat}
  {path other : Path}

theorem shadows_weaken {more : Nat} (fewer : bound ≤ more)
    (shadows : Shadows instructions others text more path other) :
    Shadows instructions others text bound path other :=
  fun steps halt within => shadows steps halt (Nat.le_trans within fewer)

theorem shadows_halts {halt : Halt} (fate : path.fate instructions text = .halts halt)
    (otherFate : other.fate others text = .halts halt.bare) :
    Shadows instructions others text bound path other := by
  intro steps last within explored
  obtain ⟨rfl, rfl⟩ := explores_unique (.halts fate) explored
  exact ⟨1, Nat.le_refl 1, .halts otherFate⟩

theorem shadows_goes {next otherNext : Path} (fate : path.fate instructions text = .goes next)
    (otherFate : other.fate others text = .goes otherNext)
    (shadows : Shadows instructions others text bound next otherNext) :
    Shadows instructions others text (bound + 1) path other := by
  intro steps halt within explored
  obtain ⟨left, rfl, rest⟩ := explores_goes fate explored
  obtain ⟨fewer, enough, otherRest⟩ := shadows left halt (Nat.le_of_succ_le_succ within) rest
  exact ⟨fewer + 1, Nat.succ_le_succ enough, .goes otherFate otherRest⟩

/-- The path makes a step and the other one waits. -/
theorem shadows_waits {next : Path} (fate : path.fate instructions text = .goes next)
    (shadows : Shadows instructions others text bound next other) :
    Shadows instructions others text (bound + 1) path other := by
  intro steps halt within explored
  obtain ⟨left, rfl, rest⟩ := explores_goes fate explored
  obtain ⟨fewer, enough, otherRest⟩ := shadows left halt (Nat.le_of_succ_le_succ within) rest
  exact ⟨fewer, Nat.le_succ_of_le enough, otherRest⟩

theorem shadows_forks {left right otherLeft otherRight : Path}
    (fate : path.fate instructions text = .forks left right)
    (otherFate : other.fate others text = .forks otherLeft otherRight)
    (ofLeft : Shadows instructions others text bound left otherLeft)
    (ofRight : Shadows instructions others text bound right otherRight) :
    Shadows instructions others text (bound + 1) path other := by
  intro steps halt within explored
  rcases explores_forks fate explored with
    ⟨own, rfl, found, ended⟩ | ⟨leftSteps, rightSteps, rfl, failed, rest⟩
  · obtain ⟨fewer, enough, otherFound⟩ := ofLeft own halt (by omega) found
    exact ⟨fewer + 1, by omega, .first otherFate otherFound (mt bare_eq_exhausted_iff.mp ended)⟩
  · obtain ⟨fewerLeft, enoughLeft, otherFailed⟩ := ofLeft leftSteps _ (by omega) failed
    obtain ⟨fewerRight, enoughRight, otherRest⟩ := ofRight rightSteps halt (by omega) rest
    exact ⟨fewerLeft + fewerRight + 1, by omega, .second otherFate otherFailed otherRest⟩

end

/-! ## Fragments -/

/-- With these groups open at `place`, and whatever was captured, the other program does from its
place on what this one does from `place` on. -/
def Follows (instructions others : Array Instruction) (text : Array Char) (bound : Nat)
    (place otherPlace : Nat) (opened : List Int) : Prop :=
  ∀ (position : Int) (captures : Array Span),
    Shadows instructions others text bound ⟨place, position, opened, captures⟩
      ⟨otherPlace, position, [], #[]⟩

/-- Wherever the two fragments lie, the second does what the first does, if what is behind the second
does what is behind the first. -/
def Fragment.ErasesTo (text : Array Char) (fragment erased : Fragment) : Prop :=
  ∀ instructions others place otherPlace, Placed instructions place fragment →
    Placed others otherPlace erased → ∀ opened bound,
      Follows instructions others text bound (place + fragment.length) (otherPlace + erased.length)
        opened →
      Follows instructions others text bound place otherPlace opened

section

variable {text : Array Char} {body erased first second firstErased secondErased : Fragment}

theorem follows_weaken {instructions others : Array Instruction} {bound more place otherPlace : Nat}
    {opened : List Int} (fewer : bound ≤ more)
    (follows : Follows instructions others text more place otherPlace opened) :
    Follows instructions others text bound place otherPlace opened :=
  fun position captures => shadows_weaken fewer (follows position captures)

theorem follows_jump {instructions others : Array Instruction}
    {bound place otherPlace target otherTarget : Nat} {opened : List Int}
    (found : instructions[place]? = some (.jump target))
    (otherFound : others[otherPlace]? = some (.jump otherTarget))
    (follows : Follows instructions others text bound target otherTarget opened) :
    Follows instructions others text (bound + 1) place otherPlace opened := by
  intro position captures
  refine shadows_goes ?_ ?_ (follows position captures)
  · rw [fate_placed found, Path.meet]
  · rw [fate_placed otherFound, Path.meet]

theorem follows_fork {instructions others : Array Instruction}
    {bound place otherPlace left otherLeft right otherRight : Nat} {opened : List Int}
    (found : instructions[place]? = some (.fork left right))
    (otherFound : others[otherPlace]? = some (.fork otherLeft otherRight))
    (ofLeft : Follows instructions others text bound left otherLeft opened)
    (ofRight : Follows instructions others text bound right otherRight opened) :
    Follows instructions others text (bound + 1) place otherPlace opened := by
  intro position captures
  refine shadows_forks ?_ ?_ (ofLeft position captures) (ofRight position captures)
  · rw [fate_placed found, Path.meet]
  · rw [fate_placed otherFound, Path.meet]

theorem erases_to_nil : Fragment.ErasesTo text [] [] := by
  intro instructions others place otherPlace placed otherPlaced opened bound follows
  exact follows

theorem erases_to_append (ofFirst : first.ErasesTo text firstErased)
    (ofSecond : second.ErasesTo text secondErased) :
    (first ++ second).ErasesTo text (firstErased ++ secondErased) := by
  intro instructions others place otherPlace placed otherPlaced opened bound follows
  obtain ⟨placedFirst, placedSecond⟩ := placed_append placed
  obtain ⟨otherFirst, otherSecond⟩ := placed_append otherPlaced
  rw [List.length_append, List.length_append, ← Nat.add_assoc, ← Nat.add_assoc] at follows
  have fromSecond := ofSecond _ _ _ _ placedSecond otherSecond opened bound follows
  exact ofFirst _ _ _ _ placedFirst otherFirst opened bound fromSecond

theorem erases_to_char (test : CharTest) : Fragment.ErasesTo text [.char test] [.char test] := by
  intro instructions others place otherPlace placed otherPlaced opened bound follows position captures
  have fate := fate_placed (placed_cons placed).1 text position opened captures
  have otherFate := fate_placed (placed_cons otherPlaced).1 text position [] #[]
  simp only [Instruction.relocate, Path.meet, Path.take] at fate otherFate
  by_cases before : position < text.size
  · rw [if_pos before] at fate otherFate
    cases read : Indexing.item? text position with
    | none =>
        simp only [read] at fate otherFate
        exact shadows_halts fate otherFate
    | some c =>
        simp only [read] at fate otherFate
        cases accepted : test.accepts c with
        | false =>
            rw [accepted] at fate otherFate
            exact shadows_halts fate otherFate
        | true =>
            rw [accepted] at fate otherFate
            have next := follows (position + 1) captures
            push_cast [List.length_singleton] at next
            exact shadows_weaken (Nat.le_succ bound) (shadows_goes fate otherFate next)
  · rw [if_neg before] at fate otherFate
    exact shadows_halts fate otherFate

theorem erases_to_anchor (anchor : Anchor) :
    Fragment.ErasesTo text [.anchor anchor] [.anchor anchor] := by
  intro instructions others place otherPlace placed otherPlaced opened bound follows position captures
  have fate := fate_placed (placed_cons placed).1 text position opened captures
  have otherFate := fate_placed (placed_cons otherPlaced).1 text position [] #[]
  have same : (⟨place, position, opened, captures⟩ : Path).atAnchor text anchor =
      (⟨otherPlace, position, [], #[]⟩ : Path).atAnchor text anchor := by
    cases anchor <;> rfl
  simp only [Instruction.relocate, Path.meet, same] at fate otherFate
  cases held : (⟨otherPlace, position, [], #[]⟩ : Path).atAnchor text anchor with
  | false =>
      rw [held] at fate otherFate
      exact shadows_halts fate otherFate
  | true =>
      rw [held] at fate otherFate
      have next := follows position captures
      push_cast [List.length_singleton] at next
      exact shadows_weaken (Nat.le_succ bound) (shadows_goes fate otherFate next)

theorem erases_to_or_else (ofFirst : first.ErasesTo text firstErased)
    (ofSecond : second.ErasesTo text secondErased) :
    (first.orElse second).ErasesTo text (firstErased.orElse secondErased) := by
  intro instructions others place otherPlace placed otherPlaced opened bound follows
  obtain ⟨fork, placedFirst, jump, placedSecond⟩ := placed_or_else placed
  obtain ⟨otherFork, otherFirst, otherJump, otherSecond⟩ := placed_or_else otherPlaced
  simp only [Fragment.length_or_else, ← Nat.add_assoc] at follows
  have afterFirst := follows_weaken (Nat.le_succ bound) (follows_jump jump otherJump follows)
  have fromFirst := ofFirst _ _ _ _ placedFirst otherFirst opened bound afterFirst
  have fromSecond := ofSecond _ _ _ _ placedSecond otherSecond opened bound follows
  exact follows_weaken (Nat.le_succ bound) (follows_fork fork otherFork fromFirst fromSecond)

theorem erases_to_optional (ofBody : body.ErasesTo text erased) :
    body.optional.ErasesTo text erased.optional := by
  intro instructions others place otherPlace placed otherPlaced opened bound follows
  obtain ⟨fork, placedBody⟩ := placed_optional placed
  obtain ⟨otherFork, otherBody⟩ := placed_optional otherPlaced
  simp only [Fragment.length_optional, ← Nat.add_assoc] at follows
  have fromBody := ofBody _ _ _ _ placedBody otherBody opened bound follows
  exact follows_weaken (Nat.le_succ bound) (follows_fork fork otherFork fromBody follows)

/-- A loop is a fork to its body, from where control comes back to the fork, and to its exit. -/
theorem follows_loop {instructions others : Array Instruction}
    {head otherHead entry otherEntry exit otherExit : Nat} {opened : List Int}
    (found : instructions[head]? = some (.fork entry exit))
    (otherFound : others[otherHead]? = some (.fork otherEntry otherExit))
    (placed : Placed instructions entry body) (otherPlaced : Placed others otherEntry erased)
    (ofBody : body.ErasesTo text erased)
    (back : ∀ bound, Follows instructions others text bound head otherHead opened →
      Follows instructions others text bound (entry + body.length) (otherEntry + erased.length) opened)
    {bound : Nat} (follows : Follows instructions others text bound exit otherExit opened) :
    Follows instructions others text bound head otherHead opened := by
  induction bound with
  | zero =>
      intro position captures steps halt within explored
      have positive := explores_steps_positive explored
      omega
  | succ bound induction =>
      -- the step of the fork pays for the way back to the head
      have onwards := follows_weaken (Nat.le_succ bound) follows
      have fromBody := ofBody _ _ _ _ placed otherPlaced opened bound (back bound (induction onwards))
      exact follows_fork found otherFound fromBody onwards

theorem erases_to_star (ofBody : body.ErasesTo text erased) :
    body.star.ErasesTo text erased.star := by
  intro instructions others place otherPlace placed otherPlaced opened bound follows
  obtain ⟨fork, placedBody, jump⟩ := placed_star placed
  obtain ⟨otherFork, otherBody, otherJump⟩ := placed_star otherPlaced
  simp only [Fragment.length_star, ← Nat.add_assoc] at follows
  refine follows_loop fork otherFork placedBody otherBody ofBody ?_ follows
  intro bound atHead
  exact follows_weaken (Nat.le_succ bound) (follows_jump jump otherJump atHead)

theorem erases_to_plus (ofBody : body.ErasesTo text erased) :
    body.plus.ErasesTo text erased.plus := by
  intro instructions others place otherPlace placed otherPlaced opened bound follows
  obtain ⟨placedBody, fork⟩ := placed_plus placed
  obtain ⟨otherBody, otherFork⟩ := placed_plus otherPlaced
  rw [Fragment.length_plus, Fragment.length_plus, ← Nat.add_assoc, ← Nat.add_assoc] at follows
  -- the head of the loop is the fork behind the body
  have atFork : Follows instructions others text bound (place + body.length)
      (otherPlace + erased.length) opened :=
    follows_loop fork otherFork placedBody otherBody ofBody (fun bound atHead => atHead) follows
  exact ofBody _ _ _ _ placedBody otherBody opened bound atFork

theorem erases_to_copies (ofBody : body.ErasesTo text erased) (count : Nat) :
    Fragment.ErasesTo text (List.replicate count body).flatten
      (List.replicate count erased).flatten := by
  induction count with
  | zero => exact erases_to_nil
  | succ count induction =>
      rw [List.replicate_succ, List.replicate_succ, List.flatten_cons, List.flatten_cons]
      exact erases_to_append ofBody induction

theorem erases_to_range (ofBody : body.ErasesTo text erased) (least most : Int) :
    (body.range least most).ErasesTo text (erased.range least most) := by
  unfold Fragment.range
  apply erases_to_append
  · exact erases_to_copies ofBody _
  · exact erases_to_copies (erases_to_optional ofBody) _

theorem erases_to_group (ofBody : body.ErasesTo text erased) : body.group.ErasesTo text erased := by
  intro instructions others place otherPlace placed otherPlaced opened bound follows position captures
  obtain ⟨openGroup, placedBody, closeGroup⟩ := placed_group placed
  simp only [Fragment.length_group, ← Nat.add_assoc] at follows
  have afterBody : Follows instructions others text bound (place + 1 + body.length)
      (otherPlace + erased.length) (position :: opened) := by
    intro stop captures
    apply shadows_weaken (Nat.le_succ bound)
    refine shadows_waits ?_ (follows stop (captures.push ⟨position, stop⟩))
    rw [fate_placed closeGroup]
    push_cast
    rfl
  have fromBody := ofBody _ _ _ _ placedBody otherPlaced (position :: opened) bound afterBody
  apply shadows_weaken (Nat.le_succ bound)
  refine shadows_waits ?_ (fromBody position captures)
  rw [fate_placed openGroup]
  push_cast
  rfl

theorem erases_to_anchored (ofBody : body.ErasesTo text erased) (front back : Bool) :
    Fragment.ErasesTo text (.anchored front body back) (.anchored front erased back) := by
  unfold Fragment.anchored
  apply erases_to_append
  · apply erases_to_append _ ofBody
    cases front with
    | false => exact erases_to_nil
    | true => exact erases_to_anchor .front
  · cases back with
    | false => exact erases_to_nil
    | true => exact erases_to_anchor .back

end

/-- The erased tree has a fragment, which does what the fragment of the tree does. -/
theorem assembled_erases {tree : Tree} {fragment : Fragment} (assembled : Assembled tree fragment) :
    ∃ erased, Assembled tree.erase erased ∧ ∀ text, fragment.ErasesTo text erased := by
  induction assembled with
  | anchored front back ofBody induction =>
      obtain ⟨erased, ofErased, erases⟩ := induction
      exact ⟨_, .anchored front back ofErased, fun text => erases_to_anchored (erases text) front back⟩
  | alternative only induction =>
      obtain ⟨erased, ofErased, erases⟩ := induction
      exact ⟨_, .alternative ofErased, erases⟩
  | choice ofEarlier ofLast inductionFirst inductionSecond =>
      obtain ⟨firstErased, ofFirst, firstErases⟩ := inductionFirst
      obtain ⟨secondErased, ofSecond, secondErases⟩ := inductionSecond
      refine ⟨_, ?_, fun text => erases_to_or_else (firstErases text) (secondErases text)⟩
      rw [Tree.erase, Tree.erase_all_concat]
      exact .choice ofFirst ofSecond
  | factor only induction =>
      obtain ⟨erased, ofErased, erases⟩ := induction
      exact ⟨_, .factor ofErased, erases⟩
  | sequence ofFactor ofOthers inductionFirst inductionSecond =>
      obtain ⟨firstErased, ofFirst, firstErases⟩ := inductionFirst
      obtain ⟨secondErased, ofSecond, secondErases⟩ := inductionSecond
      exact ⟨_, .sequence ofFirst ofSecond,
        fun text => erases_to_append (firstErases text) (secondErases text)⟩
  | group ofBody induction =>
      obtain ⟨erased, ofErased, erases⟩ := induction
      exact ⟨_, ofErased, fun text => erases_to_group (erases text)⟩
  | star ofBody induction =>
      obtain ⟨erased, ofErased, erases⟩ := induction
      exact ⟨_, .star ofErased, fun text => erases_to_star (erases text)⟩
  | plus ofBody induction =>
      obtain ⟨erased, ofErased, erases⟩ := induction
      exact ⟨_, .plus ofErased, fun text => erases_to_plus (erases text)⟩
  | optional ofBody induction =>
      obtain ⟨erased, ofErased, erases⟩ := induction
      exact ⟨_, .optional ofErased, fun text => erases_to_optional (erases text)⟩
  | range ordered ofBody induction =>
      obtain ⟨erased, ofErased, erases⟩ := induction
      exact ⟨_, .range ordered ofErased, fun text => erases_to_range (erases text) _ _⟩
  | noCopies none same => exact ⟨_, .noCopies none same, fun _ => erases_to_nil⟩
  | any => exact ⟨_, .any, fun _ => erases_to_char _⟩
  | oneOf negated members => exact ⟨_, .oneOf negated members, fun _ => erases_to_char _⟩
  | char c => exact ⟨_, .char c, fun _ => erases_to_char _⟩

/-! ## Programs -/

theorem erased_explores {tree : Tree} {source : List Char} {program : Program}
    (compiled : tree.compile source = .ok program) (erasedSource : List Char) :
    ∃ erased, tree.erase.compile erasedSource = .ok erased ∧
      ∀ (text : Array Char) (start : Int) steps halt,
        Explores program.instructions text { position := start } steps halt →
        ∃ fewer, fewer ≤ steps ∧
          Explores erased.instructions text { position := start } fewer halt.bare := by
  obtain ⟨fragment, assembled, placed, finish⟩ := placed_of_compile compiled
  obtain ⟨erasedFragment, ofErased, erases⟩ := assembled_erases (assembled_of_assemble tree assembled)
  have assembledErased := assemble_of_assembled ofErased
  obtain ⟨erased, erasedCompiled⟩ := compile_of_assemble assembledErased erasedSource
  refine ⟨erased, erasedCompiled, ?_⟩
  intro text start steps halt explored
  obtain ⟨known, same, otherPlaced, otherFinish⟩ := placed_of_compile erasedCompiled
  obtain rfl := Except.ok.inj (assembledErased.symm.trans same)
  have atEnd : Follows program.instructions erased.instructions text steps (0 + fragment.length)
      (0 + erasedFragment.length) [] := by
    intro position captures
    apply shadows_halts
    · rw [fate_placed finish]
      rfl
    · rw [fate_placed otherFinish]
      rfl
  exact erases text _ _ 0 0 placed otherPlaced [] steps atEnd start #[] steps halt (Nat.le_refl steps)
    explored

/-- Without its groups a tree compiles too, and attempts of its program complete within every limit
within which those of the program of the tree do, in no more steps, with the same whole match or
likewise without one. -/
theorem erased_attempt {tree : Tree} {source : List Char} {program : Program}
    (compiled : tree.compile source = .ok program) (erasedSource : List Char) :
    ∃ erased, tree.erase.compile erasedSource = .ok erased ∧
      ∀ (text : Array Char) (start : Int) (limit : Option Nat),
        (∀ spans steps, attempt limit program.instructions text start = .found spans steps →
          ∃ stop captures fewer, spans = ⟨start, stop⟩ :: captures ∧ fewer ≤ steps ∧
            attempt limit erased.instructions text start = .found [⟨start, stop⟩] fewer) ∧
        (∀ steps, attempt limit program.instructions text start = .missed steps →
          ∃ fewer, fewer ≤ steps ∧
            attempt limit erased.instructions text start = .missed fewer) := by
  obtain ⟨erased, erasedCompiled, explores⟩ := erased_explores compiled erasedSource
  refine ⟨erased, erasedCompiled, ?_⟩
  intro text start limit
  have completes : (∀ steps, attempt limit program.instructions text start ≠ .cut steps) →
      ∃ steps fewer halt, fewer ≤ steps ∧
        attempt limit program.instructions text start = (Progress.halted steps halt).outcome start ∧
        attempt limit erased.instructions text start =
          (Progress.halted fewer halt.bare).outcome start := by
    intro uncut
    obtain ⟨steps, halt, within, explored, same⟩ := explores_of_uncut uncut
    obtain ⟨fewer, enough, erasedExplored⟩ := explores text start steps halt explored
    refine ⟨steps, fewer, halt, enough, same, attempt_of_explores erasedExplored ?_⟩
    exact fun budget limited => Nat.le_trans enough (within budget limited)
  constructor
  · intro spans steps found
    obtain ⟨own, fewer, halt, enough, same, erasedSame⟩ :=
      completes (by rw [found]; exact fun _ => Outcome.noConfusion)
    obtain ⟨stop, captures, ofSpans, rfl, bare⟩ := bare_found (same.symm.trans found)
    exact ⟨stop, captures, fewer, ofSpans, enough, erasedSame.trans (bare fewer)⟩
  · intro steps missed
    obtain ⟨own, fewer, halt, enough, same, erasedSame⟩ :=
      completes (by rw [missed]; exact fun _ => Outcome.noConfusion)
    obtain ⟨rfl, bare⟩ := bare_missed (same.symm.trans missed)
    exact ⟨fewer, enough, erasedSame.trans (bare fewer)⟩

/-- The match takes the loop of groups back by one round. -/
theorem erased_attempt_nested_groups :
    let tree : Tree := .sequence [.group (.plus (.group (.char 'a'))), .char 'a', .char 'b']
    let text := #['a', 'a', 'b']
    ∃ program steps, tree.compile = .ok program ∧
      attempt (some 20) program.instructions text 0 = .found [⟨0, 3⟩, ⟨0, 1⟩, ⟨0, 1⟩] steps ∧
      ∃ erased fewer, tree.erase.compile = .ok erased ∧ fewer ≤ steps ∧
        attempt (some 20) erased.instructions text 0 = .found [⟨0, 3⟩] fewer := by
  intro tree text
  obtain ⟨program, steps, compiled, found⟩ : ∃ program steps, tree.compile = .ok program ∧
      attempt (some 20) program.instructions text 0 = .found [⟨0, 3⟩, ⟨0, 1⟩, ⟨0, 1⟩] steps :=
    ⟨_, _, rfl, rfl⟩
  obtain ⟨erased, erasedCompiled, attempts⟩ := erased_attempt compiled []
  obtain ⟨stop, captures, fewer, spans, enough, erasedFound⟩ :=
    (attempts text 0 (some 20)).1 _ steps found
  obtain ⟨⟨-, rfl⟩, -⟩ := List.cons.inj spans
  exact ⟨program, steps, compiled, found, erased, fewer, erasedCompiled, enough, erasedFound⟩

end RegexMachine
