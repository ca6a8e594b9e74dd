import RegexMachine.Proofs.Attempts

/-!
# Trees in the place of other trees

Where two trees compile alike and one matches what the other does, though perhaps in other numbers of
rounds, neither the tree around them nor the text can tell which of the two is there.
-/

namespace RegexMachine

open RegexMachine.Machine

inductive Context
  | hole
  | anchored (front : Bool) (inner : Context) (back : Bool)
  | choice (before : List Tree) (inner : Context) (after : List Tree)
  | sequence (before : List Tree) (inner : Context) (after : List Tree)
  | group (inner : Context)
  | star (inner : Context)
  | plus (inner : Context)
  | optional (inner : Context)
  | range (inner : Context) (least most : Int)
  | foreign (written : List Char) (before : List Tree) (inner : Context) (after : List Tree)

def Context.fill : Context → Tree → Tree
  | hole, tree => tree
  | anchored front inner back, tree => .anchored front (inner.fill tree) back
  | choice before inner after, tree => .choice (before ++ inner.fill tree :: after)
  | sequence before inner after, tree => .sequence (before ++ inner.fill tree :: after)
  | group inner, tree => .group (inner.fill tree)
  | star inner, tree => .star (inner.fill tree)
  | plus inner, tree => .plus (inner.fill tree)
  | optional inner, tree => .optional (inner.fill tree)
  | range inner least most, tree => .range (inner.fill tree) least most
  | foreign written before inner after, tree => .foreign written (before ++ inner.fill tree :: after)

/-! ## When filled contexts compile -/

theorem fill_assembles (context : Context) {left right : Tree}
    (assembles : left.Assembles → right.Assembles) :
    (context.fill left).Assembles → (context.fill right).Assembles := by
  induction context with
  | hole => exact assembles
  | anchored front inner back induction =>
      intro whole
      exact (bind_pure_ok_iff _ _).mpr (induction ((bind_pure_ok_iff _ _).mp whole))
  | choice before inner after induction =>
      intro whole
      have all := ((assembles_choice_iff _).mp whole).2
      apply (assembles_choice_iff _).mpr
      refine ⟨List.append_ne_nil_of_right_ne_nil _ (List.cons_ne_nil _ _), ?_⟩
      rw [List.forall_mem_append, List.forall_mem_cons] at all ⊢
      exact ⟨all.1, induction all.2.1, all.2.2⟩
  | sequence before inner after induction =>
      intro whole
      have all := ((assembles_sequence_iff _).mp whole).2
      apply (assembles_sequence_iff _).mpr
      refine ⟨List.append_ne_nil_of_right_ne_nil _ (List.cons_ne_nil _ _), ?_⟩
      rw [List.forall_mem_append, List.forall_mem_cons] at all ⊢
      exact ⟨all.1, induction all.2.1, all.2.2⟩
  | group inner induction =>
      intro whole
      exact (bind_pure_ok_iff _ _).mpr (induction ((bind_pure_ok_iff _ _).mp whole))
  | star inner induction =>
      intro whole
      exact (bind_pure_ok_iff _ _).mpr (induction ((bind_pure_ok_iff _ _).mp whole))
  | plus inner induction =>
      intro whole
      exact (bind_pure_ok_iff _ _).mpr (induction ((bind_pure_ok_iff _ _).mp whole))
  | optional inner induction =>
      intro whole
      exact (bind_pure_ok_iff _ _).mpr (induction ((bind_pure_ok_iff _ _).mp whole))
  | range inner least most induction =>
      intro whole
      obtain ⟨ordered, empty | body⟩ := (assembles_range_iff _ _ _).mp whole
      · exact (assembles_range_iff _ _ _).mpr ⟨ordered, .inl empty⟩
      · exact (assembles_range_iff _ _ _).mpr ⟨ordered, .inr (induction body)⟩
  | foreign written before inner after induction =>
      rintro ⟨fragment, assembled⟩
      contradiction

/-! ## What filled contexts match -/

theorem respects_fill {relates : Answer → Answer → Prop} (congruent : Congruent relates)
    {text : Array Char} {rounds more : Nat} (enough : rounds ≤ more) {left right : Tree}
    (ofHole : Matcher.Respects relates (left.matcher text rounds) (right.matcher text more))
    (context : Context) :
    Matcher.Respects relates ((context.fill left).matcher text rounds)
      ((context.fill right).matcher text more) := by
  induction context with
  | hole => exact ofHole
  | anchored front inner back induction => exact respects_anchored congruent induction text front back
  | choice before inner after induction =>
      have ofBefore := respects_matcher congruent text enough (.choice before)
      have ofAfter := respects_matcher congruent text enough (.choice after)
      rw [Context.fill, Context.fill, Tree.matcher, Tree.matcher, Tree.matcher_of_any_append,
        Tree.matcher_of_any_append, Tree.matcherOfAny, Tree.matcherOfAny]
      exact respects_or_else congruent ofBefore (respects_or_else congruent induction ofAfter)
  | sequence before inner after induction =>
      have ofBefore := respects_matcher congruent text enough (.sequence before)
      have ofAfter := respects_matcher congruent text enough (.sequence after)
      rw [Context.fill, Context.fill, Tree.matcher, Tree.matcher, Tree.matcher_of_all_append,
        Tree.matcher_of_all_append, Tree.matcherOfAll, Tree.matcherOfAll]
      exact respects_and_then ofBefore (respects_and_then induction ofAfter)
  | group inner induction => exact respects_group induction
  | star inner induction => exact respects_star congruent induction enough
  | plus inner induction => exact respects_plus congruent induction enough
  | optional inner induction => exact respects_optional congruent induction
  | range inner least most induction => exact respects_range congruent induction least most
  | foreign written before inner after induction => exact respects_fail congruent

/-- What the tree matches in some number of rounds the other matches too, perhaps in more. -/
def Tree.Refines (tree other : Tree) : Prop :=
  ∀ (text : Array Char) (rounds : Nat), ∃ more, rounds ≤ more ∧
    Matcher.Respects Answer.Within (tree.matcher text rounds) (other.matcher text more)

theorem refines_of_matcher_eq {left right : Tree}
    (same : ∀ text rounds, left.matcher text rounds = right.matcher text rounds) :
    left.Refines right := by
  intro text rounds
  refine ⟨rounds, Nat.le_refl rounds, ?_⟩
  rw [same]
  exact respects_matcher congruent_within text (Nat.le_refl rounds) right

theorem refines_fill {left right : Tree} (refines : left.Refines right) (context : Context) :
    (context.fill left).Refines (context.fill right) := by
  intro text rounds
  obtain ⟨more, enough, ofHole⟩ := refines text rounds
  exact ⟨more, enough, respects_fill congruent_within enough ofHole context⟩

theorem answer_of_refines {left right : Tree} (refines : left.Refines right) {text : Array Char}
    {rounds start : Nat} {verdict : Verdict}
    (known : left.answer text rounds start = some verdict) :
    ∃ more, right.answer text more start = some verdict := by
  obtain ⟨more, -, respects⟩ := refines text rounds
  exact ⟨more, respects _ _ (fun _ _ _ same => same) start #[] verdict known⟩

/-! ## Results -/

section

variable {left right : Tree} {leftSource rightSource : List Char} {leftProgram rightProgram : Program}
  {text : Array Char} {start : Nat}

theorem completes_of_refines (refines : left.Refines right)
    (ofLeft : left.compile leftSource = .ok leftProgram)
    (ofRight : right.compile rightSource = .ok rightProgram)
    (completes : ∃ budget,
      (attempt (some budget) leftProgram.instructions text start).result?.isSome) :
    ∃ budget, (attempt (some budget) rightProgram.instructions text start).result?.isSome := by
  obtain ⟨budget, returned⟩ := completes
  obtain ⟨result, known⟩ := Option.isSome_iff_exists.mp returned
  obtain ⟨verdict, answered, -⟩ := answer_of_result ofLeft known
  obtain ⟨more, again⟩ := answer_of_refines refines answered
  obtain ⟨steps, completed⟩ := attempt_of_answer ofRight again
  refine ⟨steps, ?_⟩
  rw [completed steps (Nat.le_refl steps), result_of_outcome]
  rfl

theorem result_unique_of_refines (refines : left.Refines right)
    (ofLeft : left.compile leftSource = .ok leftProgram)
    (ofRight : right.compile rightSource = .ok rightProgram) {leftBudget rightBudget : Nat}
    {leftResult rightResult : Option (List Span)}
    (leftReturns : (attempt (some leftBudget) leftProgram.instructions text start).result? =
      some leftResult)
    (rightReturns : (attempt (some rightBudget) rightProgram.instructions text start).result? =
      some rightResult) :
    leftResult = rightResult := by
  obtain ⟨verdict, answered, rfl⟩ := answer_of_result ofLeft leftReturns
  obtain ⟨other, otherAnswered, rfl⟩ := answer_of_result ofRight rightReturns
  obtain ⟨more, again⟩ := answer_of_refines refines answered
  rw [answer_unique again otherAnswered]

end

/-- Attempts of the two programs complete under some limit or under none, and where both complete
they return the same spans or both none. -/
def Program.Agrees (program other : Program) : Prop :=
  ∀ (text : Array Char) (start : Nat),
    ((∃ budget, (attempt (some budget) program.instructions text start).result?.isSome) ↔
      ∃ budget, (attempt (some budget) other.instructions text start).result?.isSome) ∧
    ∀ budget otherBudget result otherResult,
      (attempt (some budget) program.instructions text start).result? = some result →
      (attempt (some otherBudget) other.instructions text start).result? = some otherResult →
      result = otherResult

/-- Trees that refine each other may stand for each other wherever they stand. -/
theorem interchangeable {left right : Tree} (assembles : left.Assembles ↔ right.Assembles)
    (refines : left.Refines right) (refined : right.Refines left) (context : Context)
    (source otherSource : List Char) :
    ((∃ program, (context.fill left).compile source = .ok program) ↔
      ∃ other, (context.fill right).compile otherSource = .ok other) ∧
    ∀ program other, (context.fill left).compile source = .ok program →
      (context.fill right).compile otherSource = .ok other → program.Agrees other := by
  constructor
  · rw [compiles_iff, compiles_iff]
    exact ⟨fill_assembles context assembles.mp, fill_assembles context assembles.mpr⟩
  · intro program other compiled otherCompiled text start
    have onwards := refines_fill refines context
    have back := refines_fill refined context
    refine ⟨⟨completes_of_refines onwards compiled otherCompiled,
      completes_of_refines back otherCompiled compiled⟩, ?_⟩
    intro budget otherBudget result otherResult returns otherReturns
    exact result_unique_of_refines onwards compiled otherCompiled returns otherReturns

end RegexMachine
