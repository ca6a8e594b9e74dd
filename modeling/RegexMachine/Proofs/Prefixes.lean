import RegexMachine.Proofs.Refusals
import RegexMachine.Proofs.Scans

/-!
# Prefixes of patterns

An error in front of the end of a pattern is there whatever comes behind it, for reading takes one
character after the other. An error at the end is a want of characters: from every mode a few of them
complete a factor without opening a group, and closing brackets do the rest.
-/

namespace RegexMachine.Pattern

open Scan

/-! ## Positions of errors -/

theorem at_character_position (scan : Scan) (consumed : Nat) (cause : Cause) :
    (Failure.atCharacter scan consumed cause).error.position ≤ consumed := by
  unfold Failure.atCharacter
  split
  · exact Nat.sub_le consumed 1
  · split
    · exact Nat.le_refl consumed
    · exact Nat.le_refl consumed

section

variable {limits : Limits} {pattern : List Char}

/-- A pattern whose characters all fit is judged by its end. -/
theorem parse_of_followed {last : Scan}
    (followed : ({} : Scan).follow limits.maxDepth limits.maxDepth pattern = .ok last) :
    (∃ tree, parse limits pattern = .ok tree) ∨
      ∃ cause, parse limits pattern = .error ⟨cause, pattern.length⟩ := by
  cases finished : last.finish with
  | ok tree =>
      refine .inl ⟨tree, (parse_ok_iff limits pattern tree).mpr ?_⟩
      rw [followed]
      exact finished
  | error cause =>
      refine .inr ⟨cause, parse_error_iff_ends.mpr ⟨_, .atEnd followed finished, ?_⟩⟩
      rw [Nat.zero_add]

theorem parse_of_refused {cause : Cause}
    (refused : ({} : Scan).follow limits.maxDepth limits.maxDepth pattern = .error cause) :
    ∃ position, parse limits pattern = .error ⟨cause, position⟩ ∧ position < pattern.length := by
  have failed : ({} : Scan).follow limits.maxDepth limits.maxDepth pattern >>= finish = .error cause := by
    rw [refused]
    rfl
  obtain ⟨position, parsed⟩ := (parse_error_iff limits pattern cause).mpr failed
  obtain ⟨failure, ends, same⟩ := parse_error_iff_ends.mp parsed
  refine ⟨position, parsed, ?_⟩
  cases ends with
  | atEnd followed unfinished =>
      rw [refused] at followed
      contradiction
  | @atCharacter first further reached c cause followed stopped =>
      have inFront : position ≤ 0 + first.length := by
        have bound := at_character_position reached (0 + first.length) cause
        rwa [same] at bound
      rw [List.length_append, List.length_cons]
      omega

end

/-! ## Completions -/

section

variable {maxDepth maxOpen : Nat} {scan : Scan}

/-- A factor has been read, so that a bracket closes the group around it. -/
def Scan.Complete (scan : Scan) : Prop := scan.mode = .next ∨ ∃ tree, scan.mode = .atom tree

theorem complete_closed (complete : scan.Complete) :
    ∃ tree, scan.follow maxDepth maxOpen (List.replicate scan.opened ')') >>= finish = .ok tree := by
  obtain ⟨front, outer, frame, mode⟩ := scan
  -- each bracket makes an atom of the innermost group, which completes a factor of the next
  induction outer generalizing frame mode with
  | nil =>
      rcases complete with rfl | ⟨atom, rfl⟩
      · exact ⟨_, rfl⟩
      · exact ⟨_, rfl⟩
  | cons around outer induction =>
      rcases complete with rfl | ⟨atom, rfl⟩
      · exact induction around (.atom _) (.inr ⟨.group frame.tree, rfl⟩)
      · exact induction around (.atom _) (.inr ⟨.group (frame.addFactor atom).tree, rfl⟩)

def Mode.completion : Mode → List Char
  | .start | .factor | .escape => ['a']
  | .atom _ | .next | .ended => []
  | .classOpen | .classBody _ _ => [']']
  | .classEscape _ _ => ['a', ']']
  | .least _ _ => [',', '}']
  | .most _ _ _ => ['}']

theorem follow_completion (continues : scan.mode ≠ .ended) :
    ∃ next, scan.follow maxDepth maxOpen scan.mode.completion = .ok next ∧ next.Complete := by
  obtain ⟨front, outer, frame, mode⟩ := scan
  cases mode with
  | start => exact ⟨_, rfl, .inr ⟨_, rfl⟩⟩
  | factor => exact ⟨_, rfl, .inr ⟨_, rfl⟩⟩
  | atom tree => exact ⟨_, rfl, .inr ⟨tree, rfl⟩⟩
  | next => exact ⟨_, rfl, .inl rfl⟩
  | escape => exact ⟨_, rfl, .inr ⟨_, rfl⟩⟩
  | classOpen => exact ⟨_, rfl, .inr ⟨_, rfl⟩⟩
  | classBody negated members => exact ⟨_, rfl, .inr ⟨_, rfl⟩⟩
  | classEscape negated members => exact ⟨_, rfl, .inr ⟨_, rfl⟩⟩
  | least body value => exact ⟨_, rfl, .inl rfl⟩
  | most body lower value => exact ⟨_, rfl, .inl rfl⟩
  | ended => contradiction

theorem completion_brackets (mode : Mode) :
    mode.completion.count '(' = 0 ∧ mode.completion.count ')' = 0 := by
  cases mode <;> exact ⟨rfl, rfl⟩

/-- As many brackets as groups are open complete a scan, with a few other characters. -/
theorem completable (outermost : scan.mode = .ended → scan.outer = []) :
    ∃ further tree, scan.follow maxDepth maxOpen further >>= finish = .ok tree ∧
      further.count ')' = scan.opened := by
  by_cases ended : scan.mode = .ended
  · refine ⟨[], .anchored scan.front scan.frame.tree true, ?_, ?_⟩
    · simp [follow_nil, bind, Except.bind, finish, ended, close, outermost ended]
    · rw [opened, outermost ended]
      rfl
  · obtain ⟨next, followed, complete⟩ := follow_completion ended
    obtain ⟨tree, closed⟩ := complete_closed complete
    obtain ⟨opens, closes⟩ := completion_brackets scan.mode
    have same : next.opened = scan.opened := by
      have counted := opened_of_follow followed
      omega
    refine ⟨scan.mode.completion ++ List.replicate next.opened ')', tree, ?_, ?_⟩
    · rw [follow_append, followed]
      exact closed
    · rw [List.count_append, closes, List.count_replicate_self, Nat.zero_add, same]

/-- The anchor at the end is read outside all groups, and it is what has been read last. -/
theorem ended_of_followed {pattern : List Char}
    (followed : ({} : Scan).follow maxDepth maxOpen pattern = .ok scan) (ended : scan.mode = .ended) :
    scan.outer = [] ∧ ∃ earlier, pattern = earlier ++ ['$'] := by
  have some : pattern ≠ [] := by
    rintro rfl
    obtain rfl := Except.ok.inj followed
    contradiction
  obtain ⟨written, rfl, -, around, inside, pending, rfl, ofScan⟩ := has_read_of_follow some followed
  have ofMode := ofScan.mode
  rw [ended] at ofMode
  obtain ⟨outermost, -, rfl⟩ := ofMode
  exact ⟨outermost, marked scan.front (around ++ inside), (List.append_assoc _ _ _).symm⟩

theorem outermost_of_followed {pattern : List Char}
    (followed : ({} : Scan).follow maxDepth maxOpen pattern = .ok scan) :
    scan.mode = .ended → scan.outer = [] :=
  fun ended => (ended_of_followed followed ended).1

end

theorem followed_of_parse {limits : Limits} {pattern further : List Char} {tree : Tree}
    (parsed : parse limits (pattern ++ further) = .ok tree) :
    ∃ last, ({} : Scan).follow limits.maxDepth limits.maxDepth pattern = .ok last := by
  obtain ⟨whole, read, -⟩ := follow_of_parse parsed
  obtain ⟨last, followed, -⟩ := follow_of_append read
  exact ⟨last, followed⟩

theorem parse_extended {limits : Limits} {pattern : List Char} {last : Scan}
    (followed : ({} : Scan).follow limits.maxDepth limits.maxDepth pattern = .ok last) :
    ∃ further tree, parse limits (pattern ++ further) = .ok tree := by
  obtain ⟨further, tree, completed, -⟩ := completable (outermost_of_followed followed)
  refine ⟨further, tree, (parse_ok_iff limits _ tree).mpr ?_⟩
  rw [follow_append, followed]
  exact completed

/-- A pattern can be continued to one that is read if it is read itself or breaks off at its end, and
no error lies farther on. -/
theorem parse_extends_iff (limits : Limits) (pattern : List Char) :
    ((∃ further tree, parse limits (pattern ++ further) = .ok tree) ↔
      (∃ tree, parse limits pattern = .ok tree) ∨
        ∃ error, parse limits pattern = .error error ∧ error.position = pattern.length) ∧
    ∀ error, parse limits pattern = .error error → error.position ≤ pattern.length := by
  cases followed : ({} : Scan).follow limits.maxDepth limits.maxDepth pattern with
  | ok last =>
      have extended := parse_extended followed
      rcases parse_of_followed followed with ⟨tree, parsed⟩ | ⟨cause, failed⟩
      · rw [parsed]
        exact ⟨iff_of_true extended (.inl ⟨tree, rfl⟩), nofun⟩
      · rw [failed]
        refine ⟨iff_of_true extended (.inr ⟨_, rfl, rfl⟩), ?_⟩
        intro error same
        obtain rfl := Except.error.inj same
        exact Nat.le_refl pattern.length
  | error cause =>
      have unextended : ¬ ∃ further tree, parse limits (pattern ++ further) = .ok tree := by
        rintro ⟨further, tree, parsed⟩
        obtain ⟨last, other⟩ := followed_of_parse parsed
        rw [followed] at other
        contradiction
      obtain ⟨position, failed, inside⟩ := parse_of_refused followed
      rw [failed]
      refine ⟨iff_of_false unextended ?_, ?_⟩
      · rintro (⟨tree, parsed⟩ | ⟨error, same, atEnd⟩)
        · contradiction
        · rw [← Except.error.inj same] at atEnd
          exact absurd atEnd (Nat.ne_of_lt inside)
      · intro error same
        obtain rfl := Except.error.inj same
        exact Nat.le_of_lt inside

theorem parse_extends_range :
    (∃ further tree, parse .standard ("(a|[b]\x7b,1".toList ++ further) = .ok tree) ∧
      ¬ ∃ further tree, parse .standard ("(a$".toList ++ further) = .ok tree := by
  constructor
  · exact (parse_extends_iff .standard _).1.mpr (.inr ⟨_, rfl, rfl⟩)
  · intro extended
    rcases (parse_extends_iff .standard _).1.mp extended with ⟨tree, parsed⟩ | ⟨error, failed, atEnd⟩
    · contradiction
    · rw [← Except.error.inj (show Except.error _ = _ from failed)] at atEnd
      contradiction

end RegexMachine.Pattern
