import RegexMachine.Proofs.Readings

/-!
# Where errors stand

An error has its place in the pattern, and what stands there is what the error is about: nothing where
the pattern ended too early, and else the character that its message names. A `$` turns out to be
misplaced only at the character behind it, but the error stands at the `$`.
-/

namespace RegexMachine.Pattern

/-- What a cause is about: a character that stands in the pattern, or its end. -/
inductive Blames : Option Char → Cause → Prop
  | other (wanted : Char) (found : Option Char) : Blames found (.expected wanted found)
  | unopened : Blames (some ')') (.expectedEnd ')')
  | misplaced : Blames (some '$') (.expectedEnd '$')
  | noFactor : Blames none .missingFactor
  | dangling : Blames none .danglingEscape
  | unclosed : Blames none .unclosedClass
  | tooDeep (maxDepth : Nat) : Blames (some '(') (.tooDeep maxDepth)

/-! ## Causes -/

section

variable {maxDepth maxOpen : Nat} {scan : Scan} {c : Char} {cause : Cause}

theorem blames_begin_factor (refused : scan.beginFactor maxDepth maxOpen c = .error cause) :
    Blames (some c) cause := by
  unfold Scan.beginFactor at refused
  split at refused
  · split at refused
    · contradiction
    · obtain rfl := Except.error.inj refused
      exact .tooDeep maxDepth
  all_goals contradiction

theorem blames_after_factor (refused : scan.afterFactor maxDepth maxOpen c = .error cause) :
    Blames (some c) cause := by
  unfold Scan.afterFactor at refused
  split at refused
  · contradiction
  · split at refused
    · obtain rfl := Except.error.inj refused
      exact .unopened
    · contradiction
  · split at refused
    · contradiction
    · obtain rfl := Except.error.inj refused
      exact .other ')' (some '$')
  · exact blames_begin_factor refused

/-- A step refuses a character for what it is, unless the pattern should have ended before it. -/
theorem blames_step (continues : scan.mode ≠ .ended)
    (refused : scan.step maxDepth maxOpen c = .error cause) : Blames (some c) cause := by
  unfold Scan.step at refused
  cases mode : scan.mode with
  | start =>
      rw [mode] at refused
      dsimp only at refused
      split at refused
      · contradiction
      · exact blames_begin_factor refused
  | factor =>
      rw [mode] at refused
      exact blames_begin_factor refused
  | atom tree =>
      rw [mode] at refused
      dsimp only at refused
      split at refused
      · contradiction
      · contradiction
      · contradiction
      · contradiction
      · exact blames_after_factor refused
  | next =>
      rw [mode] at refused
      exact blames_after_factor refused
  | classOpen =>
      rw [mode] at refused
      dsimp only at refused
      split at refused <;> contradiction
  | least body value =>
      rw [mode] at refused
      dsimp only at refused
      split at refused
      · contradiction
      · split at refused
        · contradiction
        · obtain rfl := Except.error.inj refused
          exact .other ',' (some c)
  | most body lower value =>
      rw [mode] at refused
      dsimp only at refused
      split at refused
      · contradiction
      · split at refused
        · contradiction
        · obtain rfl := Except.error.inj refused
          exact .other '}' (some c)
  | ended => contradiction
  | _ =>
      rw [mode] at refused
      contradiction

theorem blames_close {back : Bool} (unclosed : scan.close back = .error cause) : Blames none cause := by
  unfold Scan.close at unclosed
  split at unclosed
  · contradiction
  · obtain rfl := Except.error.inj unclosed
    exact .other ')' none

theorem blames_finish (unfinished : scan.finish = .error cause) : Blames none cause := by
  unfold Scan.finish at unfinished
  cases mode : scan.mode with
  | start =>
      rw [mode] at unfinished
      obtain rfl := Except.error.inj unfinished
      exact .noFactor
  | factor =>
      rw [mode] at unfinished
      obtain rfl := Except.error.inj unfinished
      exact .noFactor
  | atom tree =>
      rw [mode] at unfinished
      exact blames_close unfinished
  | next =>
      rw [mode] at unfinished
      exact blames_close unfinished
  | escape =>
      rw [mode] at unfinished
      obtain rfl := Except.error.inj unfinished
      exact .dangling
  | classOpen =>
      rw [mode] at unfinished
      obtain rfl := Except.error.inj unfinished
      exact .unclosed
  | classBody negated members =>
      rw [mode] at unfinished
      obtain rfl := Except.error.inj unfinished
      exact .unclosed
  | classEscape negated members =>
      rw [mode] at unfinished
      obtain rfl := Except.error.inj unfinished
      exact .dangling
  | least body value =>
      rw [mode] at unfinished
      obtain rfl := Except.error.inj unfinished
      exact .other ',' none
  | most body lower value =>
      rw [mode] at unfinished
      obtain rfl := Except.error.inj unfinished
      exact .other '}' none
  | ended =>
      rw [mode] at unfinished
      exact blames_close unfinished

end

/-! ## Places -/

section

variable {limits : Limits} {pattern : List Char} {error : SyntaxError}

theorem blames_of_parse (failed : parse limits pattern = .error error) :
    error.position ≤ pattern.length ∧ Blames pattern[error.position]? error.cause := by
  obtain ⟨failure, ends, rfl⟩ := parse_error_iff_ends.mp failed
  cases ends with
  | atEnd followed unfinished =>
      rw [Nat.zero_add, List.getElem?_eq_none (Nat.le_refl _)]
      exact ⟨Nat.le_refl _, blames_finish unfinished⟩
  | @atCharacter first further reached c cause followed refused =>
      have inside : first.length ≤ (first ++ c :: further).length := by simp
      rw [Nat.zero_add, at_character_cause]
      by_cases ended : reached.mode = .ended
      · obtain ⟨-, earlier, rfl⟩ := ended_of_followed followed ended
        simp only [Scan.step, ended] at refused
        obtain rfl := Except.error.inj refused
        rw [at_character_ended ended, List.length_append, List.length_singleton, Nat.add_sub_cancel]
        constructor
        · simp
        · simpa using Blames.misplaced
      · have place : (Failure.atCharacter reached first.length cause).error.position = first.length := by
          by_cases deep : ∃ limit, cause = .tooDeep limit
          · obtain ⟨limit, rfl⟩ := deep
            rw [at_character_too_deep ended]
          · rw [at_character_other ended (not_exists.mp deep)]
        rw [place, List.getElem?_append_right (Nat.le_refl _), Nat.sub_self]
        exact ⟨inside, blames_step ended refused⟩

/-- The bracket that breaks the limit finds as many groups open as the limit allows. -/
theorem leaves_open_too_deep {maxDepth : Nat} (failed : parse limits pattern = .error error)
    (deep : error.cause = .tooDeep maxDepth) :
    maxDepth = limits.maxDepth ∧ LeavesOpen (pattern.take error.position) limits.maxDepth := by
  obtain ⟨failure, ends, rfl⟩ := parse_error_iff_ends.mp failed
  cases ends with
  | atEnd followed unfinished =>
      obtain rfl : _ = Cause.tooDeep maxDepth := deep
      exact absurd unfinished (finish_ne_too_deep maxDepth)
  | @atCharacter first further reached c cause followed refused =>
      obtain rfl : cause = .tooDeep maxDepth := (at_character_cause _ _ _).symm.trans deep
      obtain ⟨-, rfl, full, continues, -⟩ := step_too_deep refused
      have room := (opened_of_follow followed).1
      have opened : reached.opened = limits.maxDepth := by
        rw [show Scan.opened {} = 0 from rfl, Nat.zero_max] at room
        exact Nat.le_antisymm room full
      rw [at_character_too_deep continues, Nat.zero_add, List.take_left]
      exact ⟨rfl, opened ▸ leaves_open_of_follow followed⟩

end

/-! ## Messages -/

def EndsIn (text ending : String) : Prop := ∃ front, text = front ++ ending

def butFound (found : Char) : String := "but found `" ++ found.toString ++ "`"

section

variable {text ending : String} {first second : Char}

theorem last_of_ends_in (ends : EndsIn text ending) (last : ending.toList.getLast? = some first) :
    text.toList.getLast? = some first := by
  obtain ⟨front, rfl⟩ := ends
  rw [String.toList_append, List.getLast?_append, last, Option.some_or]

theorem to_list_but_found (found : Char) :
    (butFound found).toList = "but found `".toList ++ found :: "`".toList := by
  rw [butFound, String.toList_append, String.toList_append, Char.toString_eq_singleton,
    String.toList_singleton, List.append_assoc, List.singleton_append]

theorem last_but_found (ends : EndsIn text (butFound first)) : text.toList.getLast? = some '`' := by
  apply last_of_ends_in ends
  rw [butFound, String.toList_append, List.getLast?_append]
  rfl

theorem but_found_injective (ofFirst : EndsIn text (butFound first))
    (ofSecond : EndsIn text (butFound second)) : first = second := by
  obtain ⟨front, rfl⟩ := ofFirst
  obtain ⟨otherFront, same⟩ := ofSecond
  rw [← String.toList_inj, String.toList_append, String.toList_append, to_list_but_found,
    to_list_but_found] at same
  obtain ⟨-, endings⟩ := List.append_inj' same rfl
  exact (List.cons.inj (List.append_cancel_left endings)).1

end

section

variable {place : Option Char} {found : Char} {cause : Cause}

theorem message_at_end (blames : Blames none cause) :
    EndsIn cause.message "found End-Of-String" ∨
      cause.message = "Syntax Error: unclosed char-class, `]` not found" := by
  cases blames with
  | other wanted =>
      refine .inl ⟨"Syntax Error: expect `" ++ wanted.toString ++ "` but ", ?_⟩
      rw [String.append_assoc]
      rfl
  | noFactor => exact .inl ⟨"Syntax Error: expect a character but ", rfl⟩
  | dangling => exact .inl ⟨"Syntax Error: expect char but ", rfl⟩
  | unclosed => exact .inr rfl

theorem message_too_deep (maxDepth : Nat) : EndsIn (Cause.tooDeep maxDepth).message "groups" := by
  refine ⟨"Syntax Error: nesting too deep, more than " ++ toString maxDepth ++ " levels of ", ?_⟩
  rw [String.append_assoc]
  rfl

theorem message_at_character (blames : Blames (some found) cause) :
    EndsIn cause.message (butFound found) ∨ ∃ maxDepth, cause = .tooDeep maxDepth := by
  cases blames with
  | other wanted =>
      refine .inl ⟨"Syntax Error: expect `" ++ wanted.toString ++ "` ", ?_⟩
      have split : "` but found `" = "` " ++ "but found `" := rfl
      show "Syntax Error: expect `" ++ wanted.toString ++ "` but found `" ++ _ ++ _ = _
      rw [split, butFound]
      simp only [String.append_assoc]
  | unopened => exact .inl ⟨"Syntax Error: expect End-Of-String ", rfl⟩
  | misplaced => exact .inl ⟨"Syntax Error: expect End-Of-String ", rfl⟩
  | tooDeep maxDepth => exact .inr ⟨maxDepth, rfl⟩

/-- The last characters tell the kinds of messages apart. -/
theorem last_too_deep (maxDepth : Nat) :
    (Cause.tooDeep maxDepth).message.toList.getLast? = some 's' :=
  last_of_ends_in (message_too_deep maxDepth) rfl

theorem last_at_end (atEnd : EndsIn cause.message "found End-Of-String" ∨
      cause.message = "Syntax Error: unclosed char-class, `]` not found") :
    cause.message.toList.getLast? = some 'g' ∨ cause.message.toList.getLast? = some 'd' := by
  rcases atEnd with ends | unclosed
  · exact .inl (last_of_ends_in ends rfl)
  · rw [unclosed]
    exact .inr rfl

theorem last_at_character (blames : Blames (some found) cause) :
    cause.message.toList.getLast? = some '`' ∨ cause.message.toList.getLast? = some 's' := by
  rcases message_at_character blames with ends | ⟨maxDepth, rfl⟩
  · exact .inl (last_but_found ends)
  · exact .inr (last_too_deep maxDepth)

theorem at_end_iff_message (blames : Blames place cause) :
    place = none ↔ EndsIn cause.message "found End-Of-String" ∨
      cause.message = "Syntax Error: unclosed char-class, `]` not found" := by
  cases place with
  | none => exact iff_of_true rfl (message_at_end blames)
  | some found =>
      refine iff_of_false (Option.some_ne_none found) fun ends => ?_
      rcases last_at_end ends with last | last <;>
        rcases last_at_character blames with other | other <;>
        rw [last] at other <;> contradiction

/-- A message that names a character names the one at the place of the error. -/
theorem named_of_message (blames : Blames place cause) (names : EndsIn cause.message (butFound found)) :
    place = some found := by
  have last := last_but_found names
  cases place with
  | none =>
      rcases last_at_end (message_at_end blames) with other | other <;>
        rw [last] at other <;> contradiction
  | some other =>
      rcases message_at_character blames with ends | ⟨maxDepth, rfl⟩
      · rw [but_found_injective ends names]
      · rw [last_too_deep] at last
        contradiction

theorem expected_end_of_message (blames : Blames place cause)
    (same : cause.message = "Syntax Error: expect End-Of-String but found `" ++ found.toString ++ "`") :
    found = ')' ∨ found = '$' := by
  have names : EndsIn cause.message (butFound found) := by
    refine ⟨"Syntax Error: expect End-Of-String ", ?_⟩
    rw [same, butFound, ← String.append_assoc, ← String.append_assoc]
    rfl
  obtain rfl := named_of_message blames names
  cases blames with
  | other wanted =>
      -- in front of the words that both messages end with, one has a quote and the other a letter
      have split : "` but found `" = "`" ++ " but found `" := rfl
      have otherSplit : "Syntax Error: expect End-Of-String but found `" =
          "Syntax Error: expect End-Of-String" ++ " but found `" := rfl
      change "Syntax Error: expect `" ++ wanted.toString ++ "` but found `" ++ _ ++ _ = _ at same
      rw [String.append_left_inj, String.append_left_inj, split, otherSplit, ← String.append_assoc,
        String.append_left_inj] at same
      have quoted : EndsIn "Syntax Error: expect End-Of-String" "`" := ⟨_, same.symm⟩
      have last := last_of_ends_in quoted rfl
      contradiction
  | unopened => exact .inl rfl
  | misplaced => exact .inr rfl
  | tooDeep maxDepth =>
      have last := last_but_found names
      rw [last_too_deep] at last
      contradiction

theorem too_deep_of_message {levels : String} (blames : Blames place cause)
    (same : cause.message =
      "Syntax Error: nesting too deep, more than " ++ levels ++ " levels of groups") :
    place = some '(' ∧ ∃ maxDepth, cause = .tooDeep maxDepth ∧ levels = toString maxDepth := by
  have last : cause.message.toList.getLast? = some 's' := last_of_ends_in ⟨_, same⟩ rfl
  cases place with
  | none =>
      rcases last_at_end (message_at_end blames) with other | other <;>
        rw [last] at other <;> contradiction
  | some found =>
      rcases message_at_character blames with ends | ⟨maxDepth, rfl⟩
      · rw [last_but_found ends] at last
        contradiction
      · cases blames
        change "Syntax Error: nesting too deep, more than " ++ toString maxDepth ++ _ = _ at same
        rw [String.append_left_inj, String.append_right_inj] at same
        exact ⟨rfl, maxDepth, rfl, same.symm⟩

end

/-- An error stands in the pattern or at its end. It stands at the end if its message says that more was
wanted. Where the message names a character, the error stands at this character; and where it speaks of
nesting, at a bracket with as many groups open in front of it as the limit allows. -/
theorem error_stands_at_fault {limits : Limits} {pattern : List Char} {error : SyntaxError}
    (failed : parse limits pattern = .error error) :
    error.position ≤ pattern.length ∧
    (error.position = pattern.length ↔
      EndsIn error.cause.message "found End-Of-String" ∨
        error.cause.message = "Syntax Error: unclosed char-class, `]` not found") ∧
    (∀ found : Char, EndsIn error.cause.message ("but found `" ++ found.toString ++ "`") →
      pattern[error.position]? = some found ∧
        (error.cause.message =
            "Syntax Error: expect End-Of-String but found `" ++ found.toString ++ "`" →
          found = ')' ∨ found = '$')) ∧
    ∀ levels : String,
      error.cause.message =
          "Syntax Error: nesting too deep, more than " ++ levels ++ " levels of groups" →
        levels = toString limits.maxDepth ∧ pattern[error.position]? = some '(' ∧
          LeavesOpen (pattern.take error.position) limits.maxDepth := by
  obtain ⟨inside, blames⟩ := blames_of_parse failed
  refine ⟨inside, ?_, ?_, ?_⟩
  · rw [← at_end_iff_message blames, List.getElem?_eq_none_iff]
    exact ⟨fun atEnd => Nat.le_of_eq atEnd.symm, fun past => Nat.le_antisymm inside past⟩
  · intro found names
    exact ⟨named_of_message blames names, expected_end_of_message blames⟩
  · intro levels same
    obtain ⟨bracket, maxDepth, deep, rfl⟩ := too_deep_of_message blames same
    obtain ⟨rfl, opened⟩ := leaves_open_too_deep failed deep
    exact ⟨rfl, bracket, opened⟩

theorem error_stands_at_fault_in_group :
    let limits : Limits := { maxDepth := 1 }
    parse limits "a(b|(".toList = .error ⟨.tooDeep 1, 4⟩ ∧ "a(b|(".toList[4]? = some '(' ∧
      LeavesOpen "a(b|".toList 1 ∧
      parse limits "(a)$)".toList = .error ⟨.expectedEnd '$', 3⟩ ∧ "(a)$)".toList[3]? = some '$' := by
  intro limits
  have deep : parse limits "a(b|(".toList = .error ⟨.tooDeep 1, 4⟩ := rfl
  have misplaced : parse limits "(a)$)".toList = .error ⟨.expectedEnd '$', 3⟩ := rfl
  obtain ⟨-, -, -, nested⟩ := error_stands_at_fault deep
  obtain ⟨-, -, named, -⟩ := error_stands_at_fault misplaced
  obtain ⟨-, bracket, opened⟩ := nested "1" rfl
  exact ⟨deep, bracket, opened, misplaced, (named '$' ⟨"Syntax Error: expect End-Of-String ", rfl⟩).1⟩

end RegexMachine.Pattern
