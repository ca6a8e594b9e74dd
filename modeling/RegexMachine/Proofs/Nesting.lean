import RegexMachine.Proofs.Refusals
import RegexMachine.Proofs.Scans

/-!
# The limit of nesting

Of two limits, the smaller one reads those patterns that the larger one reads to a tree which fits. It
gives the same errors as the larger one but for its own, and that one stands at a bracket, where the
larger limit goes on.
-/

namespace RegexMachine.Pattern

section

variable {limits more : Limits} {pattern : List Char}

theorem parse_ok_more (deeper : limits.maxDepth ≤ more.maxDepth) (tree : Tree) :
    parse limits pattern = .ok tree ↔
      parse more pattern = .ok tree ∧ tree.groupDepth ≤ limits.maxDepth := by
  constructor
  · intro parsed
    have room := group_depth_of_parse parsed
    exact ⟨parse_of_within (derives_of_parse parsed) (Nat.le_trans room deeper), room⟩
  · rintro ⟨parsed, room⟩
    exact parse_of_within (derives_of_parse parsed) room

theorem parse_error_more {error : SyntaxError} (deeper : limits.maxDepth ≤ more.maxDepth)
    (other : ∀ limit, error.cause ≠ .tooDeep limit) (failed : parse limits pattern = .error error) :
    parse more pattern = .error error := by
  obtain ⟨failure, ends, rfl⟩ := parse_error_iff_ends.mp failed
  refine parse_error_iff_ends.mpr ⟨failure, ends_more deeper ends ?_, rfl⟩
  intro found same
  rw [← Except.error.inj same]
  exact other

/-- The limit refuses a pattern at a bracket, and an error under a larger one comes later. -/
theorem parse_too_deep {limit position : Nat}
    (failed : parse limits pattern = .error ⟨.tooDeep limit, position⟩) :
    limit = limits.maxDepth ∧ pattern[position]? = some '(' ∧
      ∀ more : Limits, limits.maxDepth < more.maxDepth → ∀ error,
        parse more pattern = .error error → position < error.position := by
  obtain ⟨failure, ends, same⟩ := parse_error_iff_ends.mp failed
  obtain ⟨first, further, next, rfl, rfl, begun, opened, follows⟩ :=
    ends_too_deep ends (congrArg SyntaxError.cause same)
  obtain ⟨rfl, rfl⟩ : limits.maxDepth = limit ∧ 0 + first.length = position := by
    simpa using same
  rw [Nat.zero_add]
  refine ⟨rfl, by simp, ?_⟩
  intro more deeper error refused
  -- under the larger limit the bracket opens its group, and the reading goes on behind it
  have room : next.opened ≤ more.maxDepth := by
    rw [show Scan.opened {} = 0 from rfl, Nat.zero_max] at opened
    exact Nat.le_trans opened deeper
  have followed := follows more.maxDepth more.maxDepth room
  obtain ⟨later, endsMore, rfl⟩ := parse_error_iff_ends.mp refused
  have reads := read_of_ends endsMore
  rw [List.append_cons, read_append followed] at reads
  have continues := ends_read more.maxDepth more.maxDepth (0 + (first ++ ['(']).length) next further
  rw [reads] at continues
  have behind := (within_of_ends (by rw [begun]; exact nofun) continues).1
  rw [List.length_append] at behind
  simp only [List.length_singleton] at behind
  omega

/-- A limit of nesting rejects the patterns whose groups are nested more deeply and does nothing else: it
changes no tree and no other error, and it stops at a bracket that a larger limit reads past. -/
theorem depth_limit_only_rejects (deeper : limits.maxDepth ≤ more.maxDepth) (pattern : List Char) :
    (∀ tree, parse limits pattern = .ok tree ↔
      parse more pattern = .ok tree ∧ tree.groupDepth ≤ limits.maxDepth) ∧
    (∀ error, parse limits pattern = .error error → (∀ limit, error.cause ≠ .tooDeep limit) →
      parse more pattern = .error error) ∧
    ∀ limit position, parse limits pattern = .error ⟨.tooDeep limit, position⟩ →
      limit = limits.maxDepth ∧ pattern[position]? = some '(' ∧
        (limits.maxDepth < more.maxDepth → ∀ error, parse more pattern = .error error →
          position < error.position) := by
  refine ⟨parse_ok_more deeper, fun error failed other => parse_error_more deeper other failed, ?_⟩
  intro limit position failed
  obtain ⟨named, bracket, later⟩ := parse_too_deep failed
  exact ⟨named, bracket, later more⟩

theorem depth_limit_only_rejects_unclosed :
    let limits : Limits := { maxDepth := 1 }
    parse limits "((a".toList = .error ⟨.tooDeep 1, 1⟩ ∧ "((a".toList[1]? = some '(' ∧
      ∀ error, parse .standard "((a".toList = .error error → 1 < error.position := by
  intro limits
  have failed : parse limits "((a".toList = .error ⟨.tooDeep 1, 1⟩ := rfl
  have rejects := depth_limit_only_rejects (show limits.maxDepth ≤ Limits.standard.maxDepth by decide)
    "((a".toList
  obtain ⟨-, bracket, later⟩ := rejects.2.2 1 1 failed
  exact ⟨failed, bracket, later (by decide)⟩

end

end RegexMachine.Pattern
