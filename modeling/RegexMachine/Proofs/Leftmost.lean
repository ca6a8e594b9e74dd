import RegexMachine.Proofs.Searches
import RegexMachine.Proofs.Spans

/-!
# A search is the leftmost attempt

What a search returns and records is what the attempts at its offsets come to, up to the first of them
that does not return without a match. The steps of the attempts before that one are counted, though
none of them is reported, and each of them had the whole limit to itself.
-/

namespace RegexMachine.Engine

open RegexMachine.Machine

/-! ## Jobs of the machine -/

theorem run_record {Value : Type} (result : Except Fault Value) (events : List Event) :
    (record id result events).run = ⟨result, events⟩ := by
  cases result <;> rfl

section

variable {limits : Limits} {program : Program} {text : Array Char} {start : Int}

theorem value_match_at :
    (matchAt limits program text start).run.value =
      matchOfAttempt text (attempt limits.maxSteps program.instructions text start) := by
  rw [matchAt, run_record]

theorem match_at_missed_iff :
    (matchAt limits program text start).run.value = .ok none ↔
      ∃ steps, attempt limits.maxSteps program.instructions text start = .missed steps := by
  rw [value_match_at]
  cases attempt limits.maxSteps program.instructions text start <;> simp [matchOfAttempt]

theorem match_at_cut_iff {steps : Nat} :
    (matchAt limits program text start).run.value = .error (.stepLimit steps) ↔
      attempt limits.maxSteps program.instructions text start = .cut steps := by
  rw [value_match_at]
  cases attempt limits.maxSteps program.instructions text start <;> simp [matchOfAttempt]

end

/-! ## What a search returns and records -/

section

variable (limits : Limits) (program : Program) (text : Array Char)

def stepsBefore (last : Nat) : Nat := spent limits.maxSteps program.instructions text 0 last

def MissesBefore (last : Nat) : Prop :=
  ∀ earlier < last, (matchAt limits program text earlier).run.value = .ok none

/-- What a search may return and record, as the attempts at the offsets in the text come out. The
offset behind the last character is none of them. -/
inductive Leftmost : Recorded (Except Fault (Option Match)) → Prop
  | found {start : Nat} {own : Match} (inside : start < text.size)
      (missed : MissesBefore limits program text start)
      (matched : (matchAt limits program text start).run.value = .ok (some own)) :
      Leftmost
        { value := .ok (some { own with steps := stepsBefore limits program text (start + 1) })
          events := [.matchedAt start text.size (stepsBefore limits program text (start + 1))] }
  | cut {start steps : Nat} (inside : start < text.size)
      (missed : MissesBefore limits program text start)
      (raised : (matchAt limits program text start).run.value = .error (.stepLimit steps)) :
      Leftmost
        { value := .error (.stepLimit steps)
          events := [.cutOff steps start text.size] }
  | absent (missed : MissesBefore limits program text text.size) :
      Leftmost
        { value := .ok none
          events := [.notMatched text.size (stepsBefore limits program text text.size)] }

end

section

variable {limits : Limits} {program : Program} {text : Array Char}

theorem misses_before_iff {last : Nat} :
    MissesBefore limits program text last ↔
      Misses limits.maxSteps program.instructions text 0 last := by
  simp only [MissesBefore, match_at_missed_iff, Misses, Nat.zero_le, true_implies]

theorem steps_before_succ {start : Nat} :
    stepsBefore limits program text (start + 1) = stepsBefore limits program text start +
      (attempt limits.maxSteps program.instructions text start).steps := by
  unfold stepsBefore spent
  exact Finset.sum_Ico_succ_top (Nat.zero_le start) _

theorem run_search (outcome : SearchOutcome)
    (reached : Machine.search limits.maxSteps program.instructions text = outcome) :
    (search limits program text).run =
      ⟨matchOfSearch text outcome, Event.ofSearch text.size outcome⟩ := by
  rw [search, run_record, reached]

theorem leftmost_search : Leftmost limits program text (search limits program text).run := by
  rcases search_cases limits.maxSteps program.instructions text with
    ⟨start, endsAt⟩ | ⟨misses, absent⟩
  · have missed := misses_before_iff.mpr endsAt.misses
    have ends := endsAt.ends
    have counted := @steps_before_succ limits program text start
    cases attempted : attempt limits.maxSteps program.instructions text start with
    | found spans steps =>
        rw [attempted] at ends counted
        have matched : (matchAt limits program text start).run.value =
            .ok (some ⟨text, spans.toArray, steps⟩) := by
          rw [value_match_at, attempted]
          rfl
        have leftmost := Leftmost.found endsAt.inside missed matched
        rw [counted] at leftmost
        rw [run_search _ (Option.some.inj ends).symm, Nat.zero_add]
        exact leftmost
    | missed steps =>
        rw [attempted] at ends
        contradiction
    | offText position => exact absurd attempted (attempt_ne_off_text _ (Int.natCast_nonneg start) _)
    | cut steps =>
        rw [attempted] at ends
        rw [run_search _ (Option.some.inj ends).symm]
        exact .cut endsAt.inside missed (match_at_cut_iff.mpr attempted)
  · rw [run_search _ absent]
    exact .absent (misses_before_iff.mpr misses)

/-- The attempts leave a search no choice. -/
theorem search_of_leftmost {recorded : Recorded (Except Fault (Option Match))}
    (leftmost : Leftmost limits program text recorded) :
    (search limits program text).run = recorded := by
  cases leftmost with
  | @found start own inside missed matched =>
      obtain ⟨spans, steps, attempted, rfl⟩ := attempt_of_match_at matched
      have counted := @steps_before_succ limits program text start
      rw [attempted] at counted
      rw [counted]
      apply run_search (.found start spans _)
      apply search_of_ends_at
      refine ⟨Nat.zero_le start, inside, misses_before_iff.mp missed, ?_⟩
      rw [attempted, Nat.zero_add]
      rfl
  | @cut start steps inside missed raised =>
      apply run_search (.cut start steps)
      apply search_of_ends_at
      refine ⟨Nat.zero_le start, inside, misses_before_iff.mp missed, ?_⟩
      rw [match_at_cut_iff.mp raised]
      rfl
  | absent missed => exact run_search _ (search_of_misses (misses_before_iff.mp missed))

end

/-- A search returns and records what the attempts from the left demand: the match at the first offset
whose attempt does not return without one, with the steps of all attempts up to it, or the error there;
or nothing. It leaves one event, a warning if it is cut off and a detail if not. -/
theorem search_leftmost (limits : Limits) (program : Program) (text : Array Char) :
    (∀ recorded, (search limits program text).run = recorded ↔
      Leftmost limits program text recorded) ∧
    (search limits program text).run.events.map (fun event => event.severity.name) =
      [match (search limits program text).run.value with
        | .ok _ => "DEBUG"
        | .error _ => "WARNING"] := by
  have leftmost := @leftmost_search limits program text
  constructor
  · intro recorded
    exact ⟨fun same => same ▸ leftmost, search_of_leftmost⟩
  · generalize (search limits program text).run = recorded at leftmost ⊢
    cases leftmost <;> rfl

/-- A program that matches nothing but the empty text finds nothing in it, as a search does not try
the only offset there; one that takes an `a` fails at the first offset, in one step. -/
theorem search_leftmost_last_offset :
    let empty : Program := { instructions := #[.finish] }
    let letter : Program := { instructions := #[.char (.exactly 'a'), .finish] }
    (matchAt .standard empty #[] 0).run.value = .ok (some ⟨#[], #[⟨0, 0⟩], 1⟩) ∧
      (search .standard empty #[]).run = ⟨.ok none, [.notMatched 0 0]⟩ ∧
      (search .standard letter #['b', 'a']).run =
        ⟨.ok (some ⟨#['b', 'a'], #[⟨1, 2⟩], 3⟩), [.matchedAt 1 2 3]⟩ := by
  intro empty letter
  have missed : MissesBefore .standard letter #['b', 'a'] 1 := by
    intro earlier before
    obtain rfl := Nat.lt_one_iff.mp before
    rfl
  obtain ⟨ofEmpty, -⟩ := search_leftmost .standard empty #[]
  obtain ⟨ofLetter, -⟩ := search_leftmost .standard letter #['b', 'a']
  refine ⟨rfl, (ofEmpty _).mpr (.absent nofun), (ofLetter _).mpr ?_⟩
  exact .found (by decide) missed rfl

end RegexMachine.Engine
