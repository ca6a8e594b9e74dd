import RegexMachine.Proofs.Contexts

/-!
# Identities of patterns

A plus is one copy of its body and then a star, a star is an optional plus, and a choice is its first
alternative or else a choice of the others. The two sides of an identity are written out in different
ways: a loop is tested at its end or at its head, and forks lean to the left or to the right. They try
the same ways to match in the same order, so that captures and the choice of the match are the same
too. Only the rounds that loops are given differ: an optional plus makes one round more than a star.
-/

namespace RegexMachine

open RegexMachine.Machine

inductive Tree.Identity : Tree → Tree → Prop
  | plus (body : Tree) : Identity (.plus body) (.sequence [body, .star body])
  | star (body : Tree) : Identity (.star body) (.optional (.plus body))
  | choice (first : Tree) (others : List Tree) (some : others ≠ []) :
      Identity (.choice (first :: others)) (.choice [first, .choice others])

theorem identity_assembles {left right : Tree} (identity : left.Identity right) :
    left.Assembles ↔ right.Assembles := by
  have plus (body : Tree) : body.plus.Assembles ↔ body.Assembles := bind_pure_ok_iff _ _
  have star (body : Tree) : body.star.Assembles ↔ body.Assembles := bind_pure_ok_iff _ _
  have optional (body : Tree) : body.optional.Assembles ↔ body.Assembles := bind_pure_ok_iff _ _
  cases identity with
  | plus body => simp [assembles_sequence_iff, plus, star]
  | star body => rw [star, optional, plus]
  | choice first others some => simp [assembles_choice_iff, some]

/-- An optional plus is a star that makes one round more. -/
theorem optional_plus (matcher : Matcher) (rounds : Nat) :
    (matcher.plus rounds).optional = matcher.star (rounds + 1) := rfl

theorem identity_refines {left right : Tree} (identity : left.Identity right) :
    left.Refines right ∧ right.Refines left := by
  cases identity with
  | plus body =>
      have same (text : Array Char) (rounds : Nat) : (Tree.plus body).matcher text rounds =
          (Tree.sequence [body, .star body]).matcher text rounds := rfl
      exact ⟨refines_of_matcher_eq same,
        refines_of_matcher_eq fun text rounds => (same text rounds).symm⟩
  | star body =>
      constructor
      · intro text rounds
        refine ⟨rounds, Nat.le_refl rounds, ?_⟩
        rw [Tree.matcher, Tree.matcher, Tree.matcher, optional_plus]
        have ofBody := respects_matcher congruent_within text (Nat.le_refl rounds) body
        exact respects_star congruent_within ofBody (Nat.le_succ rounds)
      · intro text rounds
        refine ⟨rounds + 1, Nat.le_succ rounds, ?_⟩
        rw [Tree.matcher, Tree.matcher, Tree.matcher, optional_plus]
        have ofBody := respects_matcher congruent_within text (Nat.le_succ rounds) body
        exact respects_star congruent_within ofBody (Nat.le_refl (rounds + 1))
  | choice first others some =>
      have same (text : Array Char) (rounds : Nat) : (Tree.choice (first :: others)).matcher text rounds =
          (Tree.choice [first, .choice others]).matcher text rounds := by
        rw [Tree.matcher, Tree.matcher, Tree.matcherOfAny, Tree.matcherOfAny,
          Tree.matcher_of_any_singleton, Tree.matcher]
      exact ⟨refines_of_matcher_eq same,
        refines_of_matcher_eq fun text rounds => (same text rounds).symm⟩

/-- Wherever one side of an identity stands, the other side compiles, completes and returns as it
does. -/
theorem identity_interchangeable {left right : Tree} (identity : left.Identity right)
    (context : Context) (source otherSource : List Char) :
    ((∃ program, (context.fill left).compile source = .ok program) ↔
      ∃ other, (context.fill right).compile otherSource = .ok other) ∧
    ∀ program other, (context.fill left).compile source = .ok program →
      (context.fill right).compile otherSource = .ok other → program.Agrees other := by
  obtain ⟨refines, refined⟩ := identity_refines identity
  exact interchangeable (identity_assembles identity) refines refined context source otherSource

theorem identity_interchangeable_in_plus :
    let context : Context := .plus (.group (.sequence [.optional (.char 'b')] .hole [.char 'c']))
    let body : Tree := .choice [.char 'a', .sequence [.char 'a', .char 'c']]
    ∃ other, (context.fill (.optional (.plus body))).compile = .ok other ∧
      ∃ budget, (attempt (some budget) other.instructions #['a', 'c', 'b', 'a', 'c', 'c']
          (0 : Nat)).result? = some (some [⟨0, 6⟩, ⟨0, 2⟩, ⟨2, 5⟩, ⟨5, 6⟩]) := by
  intro context body
  obtain ⟨program, compiled, returns⟩ : ∃ program,
      (context.fill (.star body)).compile = .ok program ∧
      (attempt (some 60) program.instructions #['a', 'c', 'b', 'a', 'c', 'c'] (0 : Nat)).result? =
        some (some [⟨0, 6⟩, ⟨0, 2⟩, ⟨2, 5⟩, ⟨5, 6⟩]) := ⟨_, rfl, by decide⟩
  obtain ⟨compiles, agrees⟩ := identity_interchangeable (.star body) context [] []
  obtain ⟨other, otherCompiled⟩ := compiles.mp ⟨program, compiled⟩
  obtain ⟨completes, same⟩ :=
    agrees program other compiled otherCompiled #['a', 'c', 'b', 'a', 'c', 'c'] 0
  obtain ⟨budget, returned⟩ := completes.mp ⟨60, by rw [returns]; rfl⟩
  obtain ⟨result, known⟩ := Option.isSome_iff_exists.mp returned
  refine ⟨other, otherCompiled, budget, ?_⟩
  rw [known, ← same 60 budget _ result returns known]

end RegexMachine
