import RegexMachine.Proofs.Contexts

/-!
# Optional copies in a row

A range is written out as mandatory copies and then optional ones in a row, so that an early copy may
be skipped and a later one taken. Nested in each other, the optional copies can only be taken from the
front. Both ways match the same: where a copy is skipped in a row, the copies behind it have been
tried and have failed in its place.
-/

namespace RegexMachine

open RegexMachine.Machine

/-! ## Matchers -/

def Matcher.nested (body : Matcher) : (count : Nat) → Matcher
  | 0 => skip
  | count + 1 => (body.andThen (body.nested count)).optional

theorem congruent_failing :
    Congruent fun answer other => answer = some .failed → other = some .failed where
  failed := fun same => same
  unknown := by intro answer known; contradiction
  orElse := by
    intro first second first' second' ofFirst ofSecond failed
    have both := (or_else_failed_iff first second).mp failed
    exact (or_else_failed_iff first' second').mpr ⟨ofFirst both.1, ofSecond both.2⟩

section

variable {body : Matcher}
  (failing : Matcher.Respects (fun answer other => answer = some .failed → other = some .failed)
    body body)

include failing

/-- Where a number of nested copies fails, each smaller number fails. -/
theorem nested_failed {count : Nat} {rest : Continuation} {position : Nat} {captures : Array Span}
    (failed : body.nested (count + 1) rest position captures = some .failed) :
    body.nested count rest position captures = some .failed := by
  induction count generalizing position captures with
  | zero =>
      have both := (or_else_failed_iff _ _).mp failed
      exact both.2
  | succ count induction =>
      have both := (or_else_failed_iff _ _).mp failed
      apply (or_else_failed_iff _ _).mpr
      constructor
      · apply failing (body.nested (count + 1) rest) (body.nested count rest) _ position captures both.1
        intro stop made
        exact induction
      · exact both.2

theorem nested_skipped {count : Nat} {rest : Continuation} {position : Nat} {captures : Array Span}
    (failed : body (body.nested count rest) position captures = some .failed) :
    body.nested count rest position captures = rest position captures := by
  cases count with
  | zero => rfl
  | succ count =>
      -- every way through the body has failed with one more copy behind it
      have fewer : body (body.nested count rest) position captures = some .failed := by
        apply failing (body.nested (count + 1) rest) (body.nested count rest) _ position captures failed
        intro stop made
        exact nested_failed failing
      show (body (body.nested count rest) position captures).orElse (rest position captures) =
        rest position captures
      rw [fewer]
      rfl

theorem copies_optional (count : Nat) : body.optional.copies count = body.nested count := by
  induction count with
  | zero => rfl
  | succ count induction =>
      rw [Matcher.copies, induction]
      funext rest position captures
      show (body (body.nested count rest) position captures).orElse
          (body.nested count rest position captures) =
        (body (body.nested count rest) position captures).orElse (rest position captures)
      cases taken : body (body.nested count rest) position captures with
      | none => rfl
      | some verdict =>
          cases verdict with
          | matched stop made => rfl
          | failed => exact nested_skipped failing taken

end

/-! ## Trees -/

namespace Tree

/-- One optional copy of the body and `further` ones nested in it. -/
def optionals (body : Tree) : (further : Nat) → Tree
  | 0 => .optional (.sequence [body])
  | further + 1 => .optional (.sequence [body, body.optionals further])

def nestedRange (body : Tree) (least most : Nat) : Tree :=
  .sequence (List.replicate least body ++ [body.optionals (most - least - 1)])

end Tree

theorem matcher_optionals (text : Array Char) (rounds : Nat) (body : Tree) (further : Nat) :
    (body.optionals further).matcher text rounds =
      (body.matcher text rounds).nested (further + 1) := by
  induction further with
  | zero => rfl
  | succ further induction =>
      rw [Tree.optionals, Tree.matcher, Tree.matcher, Tree.matcherOfAll, Tree.matcherOfAll, induction]
      rfl

theorem matcher_replicate (text : Array Char) (rounds : Nat) (body : Tree) (count : Nat) :
    Tree.matcherOfAll text rounds (List.replicate count body) =
      (body.matcher text rounds).copies count := by
  induction count with
  | zero => rfl
  | succ count induction => rw [List.replicate_succ, Tree.matcherOfAll, induction, Matcher.copies]

theorem matcher_range_eq (text : Array Char) (rounds : Nat) (body : Tree) {least most : Nat}
    (ordered : least < most) :
    (Tree.range body least most).matcher text rounds =
      (body.nestedRange least most).matcher text rounds := by
  have failing := respects_matcher congruent_failing text (Nat.le_refl rounds) body
  have optional : ((most : Int) - least).toNat = most - least - 1 + 1 := by omega
  rw [Tree.matcher, Matcher.range, Int.toNat_natCast, optional, copies_optional failing,
    Tree.nestedRange, Tree.matcher, Tree.matcher_of_all_append, matcher_replicate, Tree.matcherOfAll,
    matcher_optionals, Tree.matcherOfAll]
  rfl

theorem optionals_assembles (body : Tree) (further : Nat) :
    (body.optionals further).Assembles ↔ body.Assembles := by
  have optional (tree : Tree) : tree.optional.Assembles ↔ tree.Assembles := bind_pure_ok_iff _ _
  induction further with
  | zero => simp [Tree.optionals, optional, assembles_sequence_iff]
  | succ further induction => simp [Tree.optionals, optional, assembles_sequence_iff, induction]

theorem nested_range_assembles (body : Tree) {least most : Nat} (ordered : least < most) :
    (body.nestedRange least most).Assembles ↔ (Tree.range body least most).Assembles := by
  rw [assembles_range_iff, Tree.nestedRange, assembles_sequence_iff, List.forall_mem_append,
    List.forall_mem_singleton, optionals_assembles]
  constructor
  · rintro ⟨-, -, ofBody⟩
    exact ⟨by omega, .inr ofBody⟩
  · rintro ⟨-, empty | ofBody⟩
    · omega
    · refine ⟨List.append_ne_nil_of_right_ne_nil _ (List.cons_ne_nil _ _), ?_, ofBody⟩
      intro tree member
      rwa [List.eq_of_mem_replicate member]

/-- Wherever a range stands, it compiles, completes and returns as its nested form does. -/
theorem range_nested (body : Tree) {least most : Nat} (ordered : least < most) (context : Context)
    (source nestedSource : List Char) :
    ((∃ program, (context.fill (.range body least most)).compile source = .ok program) ↔
      ∃ program, (context.fill (body.nestedRange least most)).compile nestedSource = .ok program) ∧
    ∀ program nestedProgram,
      (context.fill (.range body least most)).compile source = .ok program →
      (context.fill (body.nestedRange least most)).compile nestedSource = .ok nestedProgram →
      ∀ (text : Array Char) (start : Nat),
        ((∃ budget, (attempt (some budget) program.instructions text start).result?.isSome) ↔
          ∃ budget, (attempt (some budget) nestedProgram.instructions text start).result?.isSome) ∧
        ∀ budget nestedBudget result nestedResult,
          (attempt (some budget) program.instructions text start).result? = some result →
          (attempt (some nestedBudget) nestedProgram.instructions text start).result? =
            some nestedResult →
          result = nestedResult := by
  constructor
  · have assembles := nested_range_assembles body ordered
    rw [compiles_iff, compiles_iff]
    exact ⟨fill_assembles context assembles.mpr, fill_assembles context assembles.mp⟩
  · intro program nestedProgram compiled nestedCompiled text start
    have same (text : Array Char) (rounds : Nat) := matcher_range_eq text rounds body ordered
    have refines := refines_fill (refines_of_matcher_eq same) context
    have refined := refines_fill
      (refines_of_matcher_eq fun text rounds => (same text rounds).symm) context
    refine ⟨⟨?_, ?_⟩, ?_⟩
    · exact completes_of_refines refines compiled nestedCompiled
    · exact completes_of_refines refined nestedCompiled compiled
    · intro budget nestedBudget result nestedResult returns nestedReturns
      exact result_unique_of_refines refines compiled nestedCompiled returns nestedReturns

theorem range_nested_in_star :
    let context : Context := .anchored false (.star .hole) true
    let body : Tree := .group (.choice [.char 'a', .sequence [.char 'a', .char 'b']])
    ∃ program, (context.fill (body.nestedRange 1 3)).compile = .ok program ∧
      ∃ budget, (attempt (some budget) program.instructions #['a', 'a', 'b'] (0 : Nat)).result? =
        some (some [⟨0, 3⟩, ⟨0, 1⟩, ⟨1, 3⟩]) := by
  intro context body
  obtain ⟨program, compiled, returns⟩ : ∃ program,
      (context.fill (.range body 1 3)).compile = .ok program ∧
      (attempt (some 60) program.instructions #['a', 'a', 'b'] (0 : Nat)).result? =
        some (some [⟨0, 3⟩, ⟨0, 1⟩, ⟨1, 3⟩]) := ⟨_, rfl, by decide⟩
  obtain ⟨nestedProgram, nestedCompiled⟩ :
      ∃ nestedProgram, (context.fill (body.nestedRange 1 3)).compile = .ok nestedProgram := ⟨_, rfl⟩
  have same := (range_nested body (show 1 < 3 by decide) context [] []).2 program nestedProgram
    compiled nestedCompiled #['a', 'a', 'b'] 0
  obtain ⟨budget, completes⟩ := same.1.mp ⟨60, by rw [returns]; rfl⟩
  obtain ⟨result, known⟩ := Option.isSome_iff_exists.mp completes
  refine ⟨nestedProgram, nestedCompiled, budget, ?_⟩
  rw [known, ← same.2 60 budget _ result returns known]

end RegexMachine
