import RegexMachine.Pattern.Reader
import RegexMachine.Proofs.Prefixes

/-!
# Readings one after another

A reading from the middle of a pattern is a reading of what is left of it, under what is left of the
limit. It takes a character if there is one, so a reader comes to the end of its pattern and stays there.
The groups that a failed reading leaves open are those that need a bracket of their own before what it
has read can become a pattern.
-/

namespace RegexMachine.Pattern

/-! ## What a reading comes to -/

def Cause.naming (maxDepth : Nat) : Cause → Cause
  | .tooDeep _ => .tooDeep maxDepth
  | cause => cause

/-- An error behind `position` characters, under a limit of which `maxDepth` is the number. -/
def SyntaxError.behind (position maxDepth : Nat) (error : SyntaxError) : SyntaxError :=
  ⟨error.cause.naming maxDepth, position + error.position⟩

/-- So many groups are open behind the text: no fewer brackets close it to a pattern. -/
def LeavesOpen (written : List Char) (count : Nat) : Prop :=
  (∃ further tree, Derives .pattern (written ++ further) tree ∧ further.count ')' = count) ∧
    ∀ further tree, Derives .pattern (written ++ further) tree → count ≤ further.count ')'

/-! ## The limit that a refusal names -/

section

variable {maxDepth otherDepth maxOpen consumed : Nat} {scan : Scan} {rest : List Char}

def Failure.naming (maxDepth : Nat) (failure : Failure) : Failure :=
  { failure with error := ⟨failure.error.cause.naming maxDepth, failure.error.position⟩ }

end

/-! ## Open groups -/

section

variable {maxDepth maxOpen : Nat} {scan : Scan} {written : List Char}

theorem opened_of_finish {tree : Tree} (finished : scan.finish = .ok tree) : scan.opened = 0 := by
  rcases finish_cases scan with ⟨whole, back, same, closes⟩ | ⟨cause, fails, -⟩
  · rw [closes] at finished
    rw [Scan.opened, ← same, (close_ok finished).1]
    rfl
  · rw [fails] at finished
    contradiction

/-- What a scan counts as open groups is what the grammar wants closed. -/
theorem leaves_open_of_follow (followed : ({} : Scan).follow maxDepth maxOpen written = .ok scan) :
    LeavesOpen written scan.opened := by
  constructor
  · let limits : Limits := { maxDepth := maxOpen + 1, maxDepth_pos := Nat.succ_pos maxOpen }
    have followedMore : ({} : Scan).follow limits.maxDepth limits.maxDepth written = .ok scan :=
      follow_more (Nat.le_succ maxOpen) followed
    obtain ⟨further, tree, completed, count⟩ := completable (outermost_of_followed followed)
    refine ⟨further, tree, derives_of_parse ((parse_ok_iff limits _ tree).mpr ?_), count⟩
    rw [Scan.follow_append, followedMore]
    exact completed
  · intro further tree derives
    -- a limit with room for the run so far and for the whole tree
    let limits : Limits :=
      { maxDepth := max maxOpen tree.groupDepth + 1, maxDepth_pos := Nat.succ_pos _ }
    have followedMore : ({} : Scan).follow limits.maxDepth limits.maxDepth written = .ok scan :=
      follow_more (Nat.le_succ_of_le (Nat.le_max_left _ _)) followed
    have parsed : parse limits (written ++ further) = .ok tree :=
      parse_of_within derives (Nat.le_succ_of_le (Nat.le_max_right _ _))
    obtain ⟨last, read, finished⟩ := follow_of_parse parsed
    obtain ⟨reached, first, ran⟩ := Scan.follow_of_append read
    obtain rfl := Except.ok.inj (first.symm.trans followedMore)
    have counted := (opened_of_follow ran).2.1
    rw [opened_of_finish finished, Nat.zero_add] at counted
    exact counted

end

/-! ## Readers -/

namespace Reader

def after (reader : Reader) : (times : Nat) → Reader
  | 0 => reader
  | times + 1 => reader.read.2.after times

section

variable {reader : Reader}

end

end Reader

end RegexMachine.Pattern
