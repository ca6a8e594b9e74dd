import RegexMachine.Proofs.Attempts

/-!
# Loops that consume come to an end

A round of a loop whose body is never empty takes a character, so more rounds than the text has
characters are enough. By induction over the tree, a matcher answers whenever its continuation answers
at the offsets where the matcher may stop, and these lie behind where it began unless it is nullable.
-/

namespace RegexMachine

open RegexMachine.Machine

/-! ## Nullable trees -/

namespace Tree

mutual

def nullable : Tree → Bool
  | anchored _ body _ => body.nullable
  | choice alternatives => nullableAny alternatives
  | sequence factors => nullableAll factors
  | group body => body.nullable
  | star _ => true
  | plus body => body.nullable
  | optional _ => true
  | range body least _ => decide (least ≤ 0) || body.nullable
  | any | oneOf _ _ | char _ | foreign _ _ => false

def nullableAny : List Tree → Bool
  | [] => false
  | alternative :: others => alternative.nullable || nullableAny others

def nullableAll : List Tree → Bool
  | [] => true
  | factor :: others => factor.nullable && nullableAll others

end

def LoopsConsume (tree : Tree) : Prop :=
  ∀ body, star body ∈ tree.walk ∨ plus body ∈ tree.walk → body.nullable = false

theorem LoopsConsume.child {child tree : Tree} (consume : tree.LoopsConsume)
    (below : child ∈ tree.children) : child.LoopsConsume :=
  fun body member => consume body (member.imp (walk_subset below ·) (walk_subset below ·))

end Tree

/-! ## Matchers that answer -/

def Stops (text : Array Char) (nullable : Bool) (position stop : Nat) : Prop :=
  position ≤ stop ∧ stop ≤ max position text.size ∧ (nullable = false → position < stop)

theorem stops_self (text : Array Char) (position : Nat) : Stops text true position position :=
  ⟨Nat.le_refl _, Nat.le_max_left _ _, by intro consumes; contradiction⟩

theorem stops_trans {text : Array Char} {first second : Bool} {position between stop : Nat}
    (before : Stops text first position between) (after : Stops text second between stop) :
    Stops text (first && second) position stop := by
  obtain ⟨forward, inside, taken⟩ := before
  obtain ⟨onward, within, takenAfter⟩ := after
  refine ⟨by omega, by omega, ?_⟩
  intro consumes
  rcases Bool.and_eq_false_iff.mp consumes with ofFirst | ofSecond
  · have := taken ofFirst
    omega
  · have := takenAfter ofSecond
    omega

theorem stops_weaken {text : Array Char} {nullable more : Bool} {position stop : Nat}
    (fewer : more = false → nullable = false) (stops : Stops text nullable position stop) :
    Stops text more position stop :=
  ⟨stops.1, stops.2.1, fun consumes => stops.2.2 (fewer consumes)⟩

/-- The matcher answers if what is left does wherever the matcher may stop. -/
def Answers (text : Array Char) (nullable : Bool) (matcher : Matcher) : Prop :=
  ∀ (rest : Continuation) position captures,
    (∀ stop made, Stops text nullable position stop → rest stop made ≠ none) →
    matcher rest position captures ≠ none

theorem or_else_ne_none {first second : Answer} (ofFirst : first ≠ none) (ofSecond : second ≠ none) :
    first.orElse second ≠ none := by
  cases first with
  | none => contradiction
  | some verdict =>
      cases verdict with
      | matched stop captures => exact ofFirst
      | failed => exact ofSecond

section

variable {text : Array Char} {nullable firstNullable secondNullable : Bool}
  {body first second : Matcher}

theorem answers_weaken {more : Bool} (fewer : more = false → nullable = false)
    (answers : Answers text nullable body) : Answers text more body := by
  intro rest position captures answered
  apply answers
  intro stop made stops
  exact answered stop made (stops_weaken fewer stops)

theorem answers_skip : Answers text true .skip := by
  intro rest position captures answered
  exact answered position captures (stops_self text position)

theorem answers_fail : Answers text false .fail := by
  intro rest position captures answered
  exact Option.some_ne_none _

theorem answers_take (accepts : Char → Bool) : Answers text false (.take text accepts) := by
  intro rest position captures answered
  unfold Matcher.take
  split
  · next c read =>
      split
      · obtain ⟨inside, -⟩ := Array.getElem?_eq_some_iff.mp read
        exact answered (position + 1) captures ⟨by omega, by omega, by omega⟩
      · exact Option.some_ne_none _
  · exact Option.some_ne_none _

theorem answers_check (holds : Nat → Bool) : Answers text true (.check holds) := by
  intro rest position captures answered
  unfold Matcher.check
  split
  · exact answered position captures (stops_self text position)
  · exact Option.some_ne_none _

theorem answers_and_then (ofFirst : Answers text firstNullable first)
    (ofSecond : Answers text secondNullable second) :
    Answers text (firstNullable && secondNullable) (first.andThen second) := by
  intro rest position captures answered
  apply ofFirst
  intro between made before
  apply ofSecond
  intro stop further after
  exact answered stop further (stops_trans before after)

theorem answers_or_else (ofFirst : Answers text firstNullable first)
    (ofSecond : Answers text secondNullable second) :
    Answers text (firstNullable || secondNullable) (first.orElse second) := by
  intro rest position captures answered
  apply or_else_ne_none
  · apply answers_weaken _ ofFirst rest position captures answered
    intro consumes
    exact (Bool.or_eq_false_iff.mp consumes).1
  · apply answers_weaken _ ofSecond rest position captures answered
    intro consumes
    exact (Bool.or_eq_false_iff.mp consumes).2

theorem answers_optional (ofBody : Answers text nullable body) : Answers text true body.optional := by
  have both := answers_or_else ofBody answers_skip
  rwa [Bool.or_true] at both

/-- Each round brings the loop closer to the end of the text. -/
theorem answers_star (ofBody : Answers text false body) {rounds : Nat} (enough : text.size < rounds) :
    Answers text true (body.star rounds) := by
  intro rest position captures answered
  replace enough : text.size - position < rounds := by omega
  induction rounds generalizing position captures with
  | zero => omega
  | succ rounds induction =>
      apply or_else_ne_none
      · apply ofBody
        intro between made before
        -- the body took a character, so one round less is enough behind it
        have taken := before.2.2 rfl
        have inside := before.2.1
        apply induction
        · intro stop further after
          apply answered stop further
          exact stops_weaken (by intro consumes; contradiction) (stops_trans before after)
        · omega
      · exact answered position captures (stops_self text position)

theorem answers_plus (ofBody : Answers text false body) {rounds : Nat} (enough : text.size < rounds) :
    Answers text false (body.plus rounds) :=
  answers_and_then ofBody (answers_star ofBody enough)

theorem answers_copies (ofBody : Answers text nullable body) (count : Nat) :
    Answers text (count == 0 || nullable) (body.copies count) := by
  induction count with
  | zero => exact answers_skip
  | succ count induction =>
      apply answers_weaken _ (answers_and_then ofBody induction)
      intro consumes
      rw [(Bool.or_eq_false_iff.mp consumes).2, Bool.false_and]

theorem answers_range (ofBody : Answers text nullable body) (least most : Int) :
    Answers text (decide (least ≤ 0) || nullable) (body.range least most) := by
  have mandatory := answers_copies ofBody least.toNat
  have optional := answers_copies (answers_optional ofBody) (most - least).toNat
  apply answers_weaken _ (answers_and_then mandatory optional)
  intro consumes
  rw [Bool.or_eq_false_iff, decide_eq_false_iff_not] at consumes
  have some : (least.toNat == 0) = false := by
    rw [beq_eq_false_iff_ne]
    omega
  rw [some, consumes.2, Bool.or_self, Bool.false_and]

theorem answers_group (ofBody : Answers text nullable body) :
    Answers text nullable body.group := by
  intro rest position captures answered
  apply ofBody
  intro stop made stops
  exact answered stop _ stops

theorem answers_anchored (ofBody : Answers text nullable body) (front back : Bool) :
    Answers text nullable (.anchored text front body back) := by
  have anchor (present : Bool) (holds : Nat → Bool) :
      Answers text true (if present then .check holds else .skip) := by
    split
    · exact answers_check holds
    · exact answers_skip
  have whole := answers_and_then (answers_and_then (anchor front (· == 0)) ofBody)
    (anchor back (· == text.size))
  rwa [Bool.true_and, Bool.and_true] at whole

end

theorem answers_any {text : Array Char} {rounds : Nat} {alternatives : List Tree}
    (each : ∀ alternative ∈ alternatives,
      Answers text alternative.nullable (alternative.matcher text rounds)) :
    Answers text (Tree.nullableAny alternatives) (Tree.matcherOfAny text rounds alternatives) := by
  induction alternatives with
  | nil => exact answers_fail
  | cons alternative others induction =>
      apply answers_or_else
      · exact each alternative List.mem_cons_self
      · exact induction fun other member => each other (List.mem_cons_of_mem _ member)

theorem answers_all {text : Array Char} {rounds : Nat} {factors : List Tree}
    (each : ∀ factor ∈ factors, Answers text factor.nullable (factor.matcher text rounds)) :
    Answers text (Tree.nullableAll factors) (Tree.matcherOfAll text rounds factors) := by
  induction factors with
  | nil => exact answers_skip
  | cons factor others induction =>
      apply answers_and_then
      · exact each factor List.mem_cons_self
      · exact induction fun other member => each other (List.mem_cons_of_mem _ member)

theorem answers_matcher {text : Array Char} {rounds : Nat} (enough : text.size < rounds) {tree : Tree}
    (consume : tree.LoopsConsume) : Answers text tree.nullable (tree.matcher text rounds) := by
  induction tree with
  | anchored front body back induction =>
      exact answers_anchored (induction (consume.child List.mem_cons_self)) front back
  | choice alternatives induction =>
      exact answers_any fun alternative member => induction alternative member (consume.child member)
  | sequence factors induction =>
      exact answers_all fun factor member => induction factor member (consume.child member)
  | group body induction => exact answers_group (induction (consume.child List.mem_cons_self))
  | star body induction =>
      have ofBody := induction (consume.child List.mem_cons_self)
      rw [consume body (.inl List.mem_cons_self)] at ofBody
      exact answers_star ofBody enough
  | plus body induction =>
      have ofBody := induction (consume.child List.mem_cons_self)
      have consumes := consume body (.inr List.mem_cons_self)
      rw [consumes] at ofBody
      rw [Tree.nullable, consumes]
      exact answers_plus ofBody enough
  | optional body induction => exact answers_optional (induction (consume.child List.mem_cons_self))
  | range body least most induction =>
      exact answers_range (induction (consume.child List.mem_cons_self)) least most
  | any => exact answers_take _
  | oneOf negated members => exact answers_take _
  | char c => exact answers_take _
  | foreign => exact answers_fail

/-- More rounds than the text has characters are enough for an answer. -/
theorem answer_known {tree : Tree} (consume : tree.LoopsConsume) (text : Array Char) (start : Nat) :
    ∃ verdict, tree.answer text (text.size + 1) start = some verdict := by
  have known : tree.answer text (text.size + 1) start ≠ none := by
    apply answers_matcher (Nat.lt_succ_self text.size) consume
    intro stop made stops
    exact Option.some_ne_none _
  exact Option.ne_none_iff_exists'.mp known

theorem attempt_ends {tree : Tree} (consume : tree.LoopsConsume) {source : List Char}
    {program : Program} (compiled : tree.compile source = .ok program) (text : Array Char)
    (start : Nat) :
    ∃ enough, ∀ budget, enough ≤ budget →
      (∀ steps, attempt (some budget) program.instructions text start ≠ .cut steps) ∧
      attempt none program.instructions text start =
        attempt (some budget) program.instructions text start := by
  obtain ⟨verdict, answered⟩ := answer_known consume text start
  obtain ⟨enough, ends⟩ := attempt_of_answer compiled answered
  refine ⟨enough, ?_⟩
  intro budget within
  have uncut : ∀ steps, attempt (some budget) program.instructions text start ≠ .cut steps := by
    intro steps
    rw [ends budget within]
    cases verdict <;> exact Outcome.noConfusion
  exact ⟨uncut, attempt_unlimited_eq uncut⟩

theorem attempt_ends_nested :
    let tree : Tree := .star (.plus (.sequence [.optional .any, .char 'a']))
    ∃ program, tree.compile = .ok program ∧ tree.LoopsConsume ∧
      ∃ enough, ∀ budget, enough ≤ budget →
        (∀ steps, attempt (some budget) program.instructions #['b', 'a', 'a'] (1 : Nat) ≠
          .cut steps) ∧
        attempt none program.instructions #['b', 'a', 'a'] (1 : Nat) =
          attempt (some budget) program.instructions #['b', 'a', 'a'] (1 : Nat) := by
  intro tree
  obtain ⟨program, compiled⟩ : ∃ program, tree.compile = .ok program := ⟨_, rfl⟩
  have consume : tree.LoopsConsume := by
    intro body member
    simp [tree, Tree.walk, Tree.walkAll] at member
    rcases member with rfl | rfl <;> rfl
  exact ⟨program, compiled, consume, attempt_ends consume compiled #['b', 'a', 'a'] 1⟩

end RegexMachine
