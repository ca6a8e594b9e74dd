import RegexMachine.Proofs.Language
import RegexMachine.Proofs.Termination

/-!
# Loops over nullable bodies never end

A nullable tree can be passed without taking a character, so it fails only if what is left fails in
its place. What is left behind a round of a loop is the loop itself: while it has no answer a nullable
body in front of it has none either, and by induction on the rounds there never is one. The code
behind the loop is therefore not reached.
-/

namespace RegexMachine

open RegexMachine.Machine

/-! ## Nullable trees without answers -/

theorem nil_mem_language_of_any {alternatives : List Tree} {alternative : Tree}
    (member : alternative ∈ alternatives) (empty : [] ∈ alternative.language) :
    [] ∈ Tree.languageOfAny alternatives := by
  induction alternatives with
  | nil => contradiction
  | cons first others induction =>
      rcases List.mem_cons.mp member with rfl | among
      · exact .inl empty
      · exact .inr (induction among)

theorem nil_mem_language_of_all {factors : List Tree}
    (empty : ∀ factor ∈ factors, [] ∈ factor.language) : [] ∈ Tree.languageOfAll factors := by
  induction factors with
  | nil => exact Language.nil_mem_one
  | cons factor others induction =>
      rw [List.forall_mem_cons] at empty
      exact Language.append_mem_mul empty.1 (induction empty.2)

theorem nil_mem_pow {language : Language Char} (empty : [] ∈ language) (count : Nat) :
    [] ∈ language ^ count := by
  induction count with
  | zero => exact Language.nil_mem_one
  | succ count induction =>
      rw [pow_succ]
      exact Language.append_mem_mul induction empty

theorem nullable_any_iff (alternatives : List Tree) :
    Tree.nullableAny alternatives = true ↔ ∃ alternative ∈ alternatives, alternative.nullable = true := by
  induction alternatives with
  | nil => simp [Tree.nullableAny]
  | cons alternative others induction => simp [Tree.nullableAny, induction]

theorem nullable_all_iff (factors : List Tree) :
    Tree.nullableAll factors = true ↔ ∀ factor ∈ factors, factor.nullable = true := by
  induction factors with
  | nil => simp [Tree.nullableAll]
  | cons factor others induction => simp [Tree.nullableAll, induction]

theorem nil_mem_language {tree : Tree} (unanchored : tree.Unanchored)
    (nullable : tree.nullable = true) : [] ∈ tree.language := by
  induction tree with
  | anchored front body back induction => exact absurd List.mem_cons_self (unanchored front body back)
  | choice alternatives induction =>
      obtain ⟨alternative, member, ofAlternative⟩ := (nullable_any_iff alternatives).mp nullable
      exact nil_mem_language_of_any member
        (induction alternative member (unanchored.child member) ofAlternative)
  | sequence factors induction =>
      apply nil_mem_language_of_all
      intro factor member
      exact induction factor member (unanchored.child member)
        ((nullable_all_iff factors).mp nullable factor member)
  | group body induction => exact induction (unanchored.child List.mem_cons_self) nullable
  | star body induction => exact Language.nil_mem_kstar _
  | plus body induction =>
      exact Language.append_mem_mul (induction (unanchored.child List.mem_cons_self) nullable)
        (Language.nil_mem_kstar _)
  | optional body induction => exact .inr Language.nil_mem_one
  | range body least most induction =>
      refine ⟨least.toNat, Nat.le_refl _, Nat.le_add_right _ _, ?_⟩
      rcases (Bool.or_eq_true _ _).mp nullable with none | ofBody
      · rw [Int.toNat_of_nonpos (of_decide_eq_true none)]
        exact Language.nil_mem_one
      · exact nil_mem_pow (induction (unanchored.child List.mem_cons_self) ofBody) _
  | any => contradiction
  | oneOf negated members => contradiction
  | char c => contradiction
  | foreign => contradiction

section

variable {body : Tree} (unanchored : body.Unanchored) (nullable : body.nullable = true)
  (text : Array Char) (rounds : Nat)

include unanchored nullable

/-- A match would match what is left, and a failure would fail it where the body is passed. -/
theorem matcher_unanswered {rest : Continuation}
    (unknown : ∀ position captures, rest position captures = none) (position : Nat)
    (captures : Array Span) : body.matcher text rounds rest position captures = none := by
  have recognizes := recognizes_matcher text rounds unanchored
  cases answered : body.matcher text rounds rest position captures with
  | none => rfl
  | some verdict =>
      cases verdict with
      | matched stop made =>
          obtain ⟨word, -, -, before, reached⟩ := recognizes.sound answered
          rw [unknown] at reached
          contradiction
      | failed =>
          obtain ⟨before, failed⟩ := recognizes.complete answered []
            (nil_mem_language unanchored nullable) (reads_nil text position)
          rw [unknown] at failed
          contradiction

theorem star_unanswered (further : Nat) (rest : Continuation) (position : Nat)
    (captures : Array Span) :
    (body.matcher text rounds).star further rest position captures = none := by
  induction further generalizing position captures with
  | zero => rfl
  | succ further induction =>
      have round := matcher_unanswered unanchored nullable text rounds induction position captures
      -- what stands behind the loop is tried only where the round has failed
      show (body.matcher text rounds ((body.matcher text rounds).star further rest) position
        captures).orElse (rest position captures) = none
      rw [round]
      rfl

theorem plus_unanswered (further : Nat) (rest : Continuation) (position : Nat)
    (captures : Array Span) :
    (body.matcher text rounds).plus further rest position captures = none :=
  matcher_unanswered unanchored nullable text rounds
    (star_unanswered unanchored nullable text rounds further rest) position captures

end

/-! ## Attempts and searches without answers -/

section

variable {tree : Tree} {source : List Char} {program : Program} {text : Array Char}

theorem attempt_of_unanswered (compiled : tree.compile source = .ok program) {start : Nat}
    (unanswered : ∀ rounds, tree.answer text rounds start = none) (budget : Nat) :
    attempt (some budget) program.instructions text start = .cut budget := by
  apply attempt_unexplored
  intro steps halt explored
  obtain ⟨verdict, answered, -⟩ := compiled_halt compiled explored
  rw [unanswered] at answered
  contradiction

/-- The attempt at the first offset cuts off a search. -/
theorem search_of_cut {maxSteps : Option Nat} {instructions : Array Instruction} {steps : Nat}
    (nonempty : text ≠ #[])
    (cut : attempt maxSteps instructions text (0 : Nat) = .cut steps) :
    search maxSteps instructions text = .cut 0 steps := by
  have positive := Array.size_pos_iff.mpr nonempty
  have notMissed {last : Nat} (misses : Misses maxSteps instructions text 0 last) : last = 0 := by
    by_contra some
    obtain ⟨spent, missed⟩ := misses 0 (Nat.le_refl 0) (Nat.pos_of_ne_zero some)
    rw [cut] at missed
    contradiction
  rcases search_cases maxSteps instructions text with ⟨start, endsAt⟩ | ⟨misses, -⟩
  · have ends := endsAt.ends
    rw [notMissed endsAt.misses, cut] at ends
    exact (Option.some.inj ends).symm
  · have empty := notMissed misses
    omega

end

/-- A loop over a nullable body, whatever follows it, uses up every budget at every offset. -/
theorem nullable_loop_cut {body : Tree} (unanchored : body.Unanchored)
    (nullable : body.nullable = true) (compiles : ∃ program, body.compile = .ok program)
    {rest : List Tree} (restCompiles : ∀ factor ∈ rest, ∃ program, factor.compile = .ok program)
    {loop : Tree} (loops : loop = .star body ∨ loop = .plus body) (source : List Char) :
    ∃ program, (Tree.sequence (loop :: rest)).compile source = .ok program ∧
      (∀ (text : Array Char) (start budget : Nat),
        attempt (some budget) program.instructions text start = .cut budget) ∧
      ∀ (text : Array Char) (budget : Nat), text ≠ #[] →
        search (some budget) program.instructions text = .cut 0 budget := by
  have ofBody := (compiles_iff body []).mp compiles
  have ofLoop : loop.Assembles := by
    rcases loops with rfl | rfl
    · exact (bind_pure_ok_iff _ _).mpr ofBody
    · exact (bind_pure_ok_iff _ _).mpr ofBody
  have ofAll : (Tree.sequence (loop :: rest)).Assembles := by
    rw [assembles_sequence_iff, List.forall_mem_cons]
    exact ⟨List.cons_ne_nil _ _, ofLoop, fun factor member =>
      (compiles_iff factor []).mp (restCompiles factor member)⟩
  obtain ⟨program, compiled⟩ := (compiles_iff _ source).mpr ofAll
  have unanswered (text : Array Char) (rounds start : Nat) :
      (Tree.sequence (loop :: rest)).answer text rounds start = none := by
    rcases loops with rfl | rfl
    · exact star_unanswered unanchored nullable text rounds rounds _ start #[]
    · exact plus_unanswered unanchored nullable text rounds rounds _ start #[]
  have cut (text : Array Char) (start budget : Nat) :=
    attempt_of_unanswered compiled (unanswered text · start) budget
  exact ⟨program, compiled, cut, fun text budget nonempty => search_of_cut nonempty (cut text 0 budget)⟩

theorem nullable_loop_cut_nested :
    let body : Tree := .sequence [.optional (.char 'a'), .range (.group (.star (.char 'b'))) 1 2]
    ∃ program, (Tree.sequence [.plus body, .char 'c', .anchored true .any false]).compile =
        .ok program ∧
      (∀ (text : Array Char) (start budget : Nat),
        attempt (some budget) program.instructions text start = .cut budget) ∧
      ∀ (text : Array Char) (budget : Nat), text ≠ #[] →
        search (some budget) program.instructions text = .cut 0 budget := by
  intro body
  have unanchored : body.Unanchored := by
    intro front inner back member
    simp [body, Tree.walk, Tree.walkAll] at member
  have restCompiles : ∀ factor ∈ [Tree.char 'c', .anchored true .any false],
      ∃ program, factor.compile = .ok program := by
    intro factor member
    rcases List.mem_pair.mp member with rfl | rfl
    · exact ⟨_, rfl⟩
    · exact ⟨_, rfl⟩
  exact nullable_loop_cut unanchored rfl ⟨_, rfl⟩ restCompiles (.inr rfl) []

end RegexMachine
