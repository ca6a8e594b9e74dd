import Mathlib.Algebra.BigOperators.Intervals
import RegexMachine.Machine.Search

/-!
# Where searches end

A search ends at the first offset whose attempt does not miss, and in the way this attempt ends. If
there is no such offset it has spent the steps of all attempts.
-/

namespace RegexMachine.Machine

open Finset

def Outcome.steps : Outcome → Nat
  | found _ steps | missed steps | cut steps => steps
  | offText _ => 0

def Outcome.ends (start total : Nat) : Outcome → Option SearchOutcome
  | found spans steps => some (.found start spans (total + steps))
  | missed _ => none
  | offText position => some (.offText position)
  | cut steps => some (.cut start steps)

theorem ends_found {outcome : Outcome} {start total place steps : Nat} {spans : List Span}
    (ends : outcome.ends start total = some (.found place spans steps)) :
    place = start ∧ ∃ own, outcome = .found spans own ∧ steps = total + own := by
  cases outcome with
  | found own ownSteps =>
      obtain ⟨rfl, rfl, rfl⟩ := SearchOutcome.found.inj (Option.some.inj ends)
      exact ⟨rfl, ownSteps, rfl, rfl⟩
  | missed steps => contradiction
  | offText position => exact SearchOutcome.noConfusion (Option.some.inj ends)
  | cut steps => exact SearchOutcome.noConfusion (Option.some.inj ends)

theorem ends_cut {outcome : Outcome} {start total place steps : Nat}
    (ends : outcome.ends start total = some (.cut place steps)) :
    place = start ∧ outcome = .cut steps := by
  cases outcome with
  | found spans steps => exact SearchOutcome.noConfusion (Option.some.inj ends)
  | missed steps => contradiction
  | offText position => exact SearchOutcome.noConfusion (Option.some.inj ends)
  | cut own =>
      obtain ⟨rfl, rfl⟩ := SearchOutcome.cut.inj (Option.some.inj ends)
      exact ⟨rfl, rfl⟩

section

variable (maxSteps : Option Nat) (instructions : Array Instruction) (text : Array Char)

/-- The steps of the attempts at the offsets from `first` to before `last`. -/
def spent (first last : Nat) : Nat :=
  ∑ offset ∈ Ico first last, (attempt maxSteps instructions text offset).steps

def Misses (first last : Nat) : Prop :=
  ∀ offset, first ≤ offset → offset < last →
    ∃ steps, attempt maxSteps instructions text offset = .missed steps

/-- With `total` steps behind it, a search from `first` on ends with the attempt at `start`. -/
structure EndsAt (first total start : Nat) (outcome : SearchOutcome) : Prop where
  after : first ≤ start
  inside : start < text.size
  misses : Misses maxSteps instructions text first start
  ends : (attempt maxSteps instructions text start).ends start
    (total + spent maxSteps instructions text first start) = some outcome

end

section

variable {maxSteps : Option Nat} {instructions : Array Instruction} {text : Array Char}

theorem misses_self (first : Nat) : Misses maxSteps instructions text first first := by
  intro offset after before
  omega

theorem misses_extend {first last steps : Nat}
    (missed : attempt maxSteps instructions text first = .missed steps)
    (misses : Misses maxSteps instructions text (first + 1) last) :
    Misses maxSteps instructions text first last := by
  intro offset after before
  rcases Nat.eq_or_lt_of_le after with rfl | later
  · exact ⟨steps, missed⟩
  · exact misses offset later before

theorem spent_extend {first last steps : Nat} (inside : first < last)
    (missed : attempt maxSteps instructions text first = .missed steps) :
    spent maxSteps instructions text first last =
      steps + spent maxSteps instructions text (first + 1) last := by
  unfold spent
  rw [sum_eq_sum_Ico_succ_bot inside, missed]
  rfl

theorem ends_at_first {first total : Nat} {outcome : SearchOutcome} (inside : first < text.size)
    (ends : (attempt maxSteps instructions text first).ends first total = some outcome) :
    EndsAt maxSteps instructions text first total first outcome where
  after := Nat.le_refl first
  inside := inside
  misses := misses_self first
  ends := by
    rw [spent, Ico_self, sum_empty]
    exact ends

theorem ends_at_extend {first total steps start : Nat} {outcome : SearchOutcome}
    (missed : attempt maxSteps instructions text first = .missed steps)
    (further : EndsAt maxSteps instructions text (first + 1) (total + steps) start outcome) :
    EndsAt maxSteps instructions text first total start outcome where
  after := Nat.le_of_succ_le further.after
  inside := further.inside
  misses := misses_extend missed further.misses
  ends := by
    rw [spent_extend further.after missed, ← Nat.add_assoc]
    exact further.ends

theorem search_last_cases {left : Nat} (within : left ≤ text.size) (total : Nat) :
    (∃ start, EndsAt maxSteps instructions text (text.size - left) total start
      (searchLast maxSteps instructions text left total)) ∨
    (Misses maxSteps instructions text (text.size - left) text.size ∧
      searchLast maxSteps instructions text left total =
        .absent (total + spent maxSteps instructions text (text.size - left) text.size)) := by
  induction left generalizing total with
  | zero =>
      right
      rw [Nat.sub_zero]
      exact ⟨misses_self _, by simp [searchLast, spent]⟩
  | succ left induction =>
      have inside : text.size - (left + 1) < text.size := by omega
      have next : text.size - left = text.size - (left + 1) + 1 := by omega
      rw [searchLast]
      cases attempted : attempt maxSteps instructions text (text.size - (left + 1) : Nat) with
      | missed steps =>
          have further := induction (by omega) (total + steps)
          rw [next] at further
          rcases further with ⟨start, endsAt⟩ | ⟨misses, absent⟩
          · exact .inl ⟨start, ends_at_extend attempted endsAt⟩
          · right
            refine ⟨misses_extend attempted misses, ?_⟩
            rw [spent_extend inside attempted, ← Nat.add_assoc]
            exact absent
      | found spans steps =>
          exact .inl ⟨_, ends_at_first inside (by rw [attempted]; rfl)⟩
      | offText position =>
          exact .inl ⟨_, ends_at_first inside (by rw [attempted]; rfl)⟩
      | cut steps =>
          exact .inl ⟨_, ends_at_first inside (by rw [attempted]; rfl)⟩

end

/-- A search ends with the first attempt that does not miss, or misses everywhere. -/
theorem search_cases (maxSteps : Option Nat) (instructions : Array Instruction) (text : Array Char) :
    (∃ start, EndsAt maxSteps instructions text 0 0 start (search maxSteps instructions text)) ∨
    (Misses maxSteps instructions text 0 text.size ∧
      search maxSteps instructions text =
        .absent (spent maxSteps instructions text 0 text.size)) := by
  have cases := @search_last_cases maxSteps instructions text _ (Nat.le_refl text.size) 0
  rwa [Nat.sub_self, Nat.zero_add] at cases

theorem search_of_ends_at {maxSteps : Option Nat} {instructions : Array Instruction}
    {text : Array Char} {start : Nat} {outcome : SearchOutcome}
    (endsAt : EndsAt maxSteps instructions text 0 0 start outcome) :
    search maxSteps instructions text = outcome := by
  have ends := endsAt.ends
  rcases search_cases maxSteps instructions text with ⟨other, otherEndsAt⟩ | ⟨misses, -⟩
  · have otherEnds := otherEndsAt.ends
    rcases Nat.lt_trichotomy start other with before | rfl | behind
    · obtain ⟨steps, missed⟩ := otherEndsAt.misses start (Nat.zero_le start) before
      rw [missed] at ends
      contradiction
    · rw [ends] at otherEnds
      exact (Option.some.inj otherEnds).symm
    · obtain ⟨steps, missed⟩ := endsAt.misses other (Nat.zero_le other) behind
      rw [missed] at otherEnds
      contradiction
  · obtain ⟨steps, missed⟩ := misses start (Nat.zero_le start) endsAt.inside
    rw [missed] at ends
    contradiction

theorem search_of_misses {maxSteps : Option Nat} {instructions : Array Instruction}
    {text : Array Char} (misses : Misses maxSteps instructions text 0 text.size) :
    search maxSteps instructions text =
      .absent (spent maxSteps instructions text 0 text.size) := by
  rcases search_cases maxSteps instructions text with ⟨start, endsAt⟩ | ⟨-, absent⟩
  · have ends := endsAt.ends
    obtain ⟨steps, missed⟩ := misses start (Nat.zero_le start) endsAt.inside
    rw [missed] at ends
    contradiction
  · exact absent

end RegexMachine.Machine
