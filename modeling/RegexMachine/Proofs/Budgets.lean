import Mathlib.Algebra.Order.BigOperators.Group.Finset
import RegexMachine.Proofs.Attempts
import RegexMachine.Proofs.Reachable

/-!
# Step limits only cut off

Without a limit the machine halts at a certain step, or it never halts. If it halts, the number of the
step is the threshold of the attempt: every limit below it cuts the attempt off, and from it on no
limit is ever noticed. Limits are those of single attempts, so a search is cut off at the first offset
whose attempt has its threshold beyond the limit, unless an attempt before it finds something; and two
searches that are not cut off are the same search.
-/

namespace RegexMachine.Machine

/-- Without a limit the machine halts in its step number `steps`. -/
inductive Halts (instructions : Array Instruction) (text : Array Char) : State → Nat → Halt → Prop
  | last {state halt} (turn : step instructions text state = .halted halt) :
      Halts instructions text state 1 halt
  | more {state next steps halt} (turn : step instructions text state = .running next)
      (rest : Halts instructions text next steps halt) :
      Halts instructions text state (steps + 1) halt

section

variable {instructions : Array Instruction} {text : Array Char}

theorem halts_rest {state next : State} {steps : Nat} {halt : Halt}
    (turn : step instructions text state = .running next)
    (halts : Halts instructions text state steps halt) :
    ∃ fewer, steps = fewer + 1 ∧ Halts instructions text next fewer halt := by
  cases halts with
  | last other => exact Turn.noConfusion (turn.symm.trans other)
  | more other rest =>
      obtain rfl := Turn.running.inj (turn.symm.trans other)
      exact ⟨_, rfl, rest⟩

theorem halts_unique {state : State} {steps otherSteps : Nat} {halt otherHalt : Halt}
    (halts : Halts instructions text state steps halt)
    (other : Halts instructions text state otherSteps otherHalt) :
    steps = otherSteps ∧ halt = otherHalt := by
  induction halts generalizing otherSteps with
  | last turn =>
      cases other with
      | last otherTurn => exact ⟨rfl, Turn.halted.inj (turn.symm.trans otherTurn)⟩
      | more otherTurn => exact Turn.noConfusion (turn.symm.trans otherTurn)
  | more turn rest induction =>
      obtain ⟨fewer, rfl, otherRest⟩ := halts_rest turn other
      obtain ⟨rfl, same⟩ := induction otherRest
      exact ⟨rfl, same⟩

theorem run_of_halts {state : State} {steps : Nat} {halt : Halt}
    (halts : Halts instructions text state steps halt) (done : Nat) :
    run instructions text steps done state = .halted (done + steps) halt := by
  induction halts generalizing done with
  | last turn => rw [run_succ, turn, Turn.follow]
  | @more state next steps halt turn rest induction =>
      rw [run_succ, turn, Turn.follow, induction, Nat.add_assoc, Nat.add_comm 1]

theorem halts_of_run {budget done total : Nat} {state : State} {halt : Halt}
    (ended : run instructions text budget done state = .halted total halt) :
    ∃ steps, total = done + steps ∧ Halts instructions text state steps halt := by
  induction budget generalizing done state with
  | zero => contradiction
  | succ budget induction =>
      rw [run_succ] at ended
      cases turn : step instructions text state with
      | halted last =>
          rw [turn, Turn.follow] at ended
          obtain ⟨rfl, rfl⟩ := Progress.halted.inj ended
          exact ⟨1, rfl, .last turn⟩
      | running next =>
          rw [turn, Turn.follow] at ended
          obtain ⟨steps, rfl, rest⟩ := induction ended
          exact ⟨steps + 1, by omega, .more turn rest⟩

/-- The machine halts on a path in as many steps as it takes to explore it. -/
theorem halts_iff_explores {path : Path} {steps : Nat} {halt : Halt} :
    Halts instructions text (path.state []) steps halt ↔ Explores instructions text path steps halt := by
  have halts_of_explores {steps : Nat} {halt : Halt}
      (explored : Explores instructions text path steps halt) :
      Halts instructions text (path.state []) steps halt := by
    have ended := run_explored explored [] (by intro checkpoint newest; contradiction) 0 0
    rw [turn_nil, Turn.follow] at ended
    obtain ⟨counted, same, halts⟩ := halts_of_run ended
    rw [Nat.zero_add, Nat.zero_add] at same
    rwa [same]
  refine ⟨?_, halts_of_explores⟩
  intro halts
  obtain ⟨counted, last, explored⟩ := explores_of_halted (run_of_halts halts 0)
  obtain ⟨rfl, rfl⟩ := halts_unique halts (halts_of_explores explored)
  exact explored

end

/-! ## Attempts -/

section

variable (instructions : Array Instruction) (text : Array Char) (start : Nat) (budget : Nat)

def Completes : Prop :=
  ∃ steps halt, steps ≤ budget ∧ Halts instructions text { position := start } steps halt

def Fails : Prop :=
  ∃ steps halt, steps ≤ budget ∧ Halts instructions text { position := start } steps halt ∧
    ∀ stop captures, halt ≠ .matched stop captures

end

section

variable {instructions : Array Instruction} {text : Array Char} {start : Nat}

theorem attempt_of_halts {steps : Nat} {halt : Halt}
    (halts : Halts instructions text { position := start } steps halt) :
    attempt none instructions text start = (Progress.halted steps halt).outcome start ∧
      ∀ budget, attempt (some budget) instructions text start =
        if steps ≤ budget then (Progress.halted steps halt).outcome start else .cut budget := by
  have explored : Explores instructions text { position := start } steps halt :=
    halts_iff_explores.mp halts
  exact ⟨attempt_unlimited_explored explored, attempt_explored explored⟩

theorem attempt_endless
    (endless : ¬ ∃ steps halt, Halts instructions text { position := start } steps halt)
    (budget : Nat) : attempt (some budget) instructions text start = .cut budget := by
  apply attempt_unexplored
  intro steps halt explored
  exact endless ⟨steps, halt, halts_iff_explores.mpr explored⟩

/-- The outcome of an attempt that halts. -/
theorem outcome_of_halts {steps : Nat} {halt : Halt}
    (halts : Halts instructions text { position := start } steps halt) :
    (∃ stop captures, halt = .matched stop captures ∧
      (Progress.halted steps halt).outcome start = .found (⟨start, stop⟩ :: captures.toList) steps) ∨
    ((∀ stop captures, halt ≠ .matched stop captures) ∧
      (Progress.halted steps halt).outcome start = .missed steps) := by
  cases halt with
  | matched stop captures => exact .inl ⟨stop, captures, rfl, rfl⟩
  | exhausted => exact .inr ⟨nofun, rfl⟩
  | strayed => exact .inr ⟨nofun, rfl⟩
  | unopened => exact .inr ⟨nofun, rfl⟩
  | offText position =>
      exact absurd (attempt_of_halts halts).1
        (attempt_ne_off_text none (Int.natCast_nonneg start) position)

theorem attempt_cut_iff_not_completes {budget : Nat} :
    (∃ steps, attempt (some budget) instructions text start = .cut steps) ↔
      ¬ Completes instructions text start budget := by
  by_cases ends : ∃ steps halt, Halts instructions text { position := start } steps halt
  · obtain ⟨steps, halt, halts⟩ := ends
    rw [(attempt_of_halts halts).2]
    have within : Completes instructions text start budget ↔ steps ≤ budget := by
      constructor
      · rintro ⟨otherSteps, otherHalt, enough, other⟩
        rwa [(halts_unique halts other).1]
      · intro enough
        exact ⟨steps, halt, enough, halts⟩
    rw [within]
    split
    · next enough =>
        rcases outcome_of_halts halts with ⟨stop, captures, -, found⟩ | ⟨-, missed⟩
        · simp [found, enough]
        · simp [missed, enough]
    · next short => simp [short]
  · rw [attempt_endless ends]
    refine ⟨?_, fun _ => ⟨budget, rfl⟩⟩
    rintro - ⟨steps, halt, -, halts⟩
    exact ends ⟨steps, halt, halts⟩

theorem attempt_missed_iff_fails {budget : Nat} :
    (∃ steps, attempt (some budget) instructions text start = .missed steps) ↔
      Fails instructions text start budget := by
  constructor
  · rintro ⟨counted, missed⟩
    have uncut : ¬ ∃ steps, attempt (some budget) instructions text start = .cut steps := by
      rintro ⟨steps, cut⟩
      rw [missed] at cut
      contradiction
    obtain ⟨steps, halt, enough, halts⟩ := not_not.mp (mt attempt_cut_iff_not_completes.mpr uncut)
    rw [(attempt_of_halts halts).2, if_pos enough] at missed
    rcases outcome_of_halts halts with ⟨stop, captures, -, found⟩ | ⟨unmatched, -⟩
    · rw [found] at missed
      contradiction
    · exact ⟨steps, halt, enough, halts, unmatched⟩
  · rintro ⟨steps, halt, enough, halts, unmatched⟩
    refine ⟨steps, ?_⟩
    rw [(attempt_of_halts halts).2, if_pos enough]
    rcases outcome_of_halts halts with ⟨stop, captures, matched, -⟩ | ⟨-, missed⟩
    · exact absurd matched (unmatched stop captures)
    · exact missed

/-- What an attempt spends is within its limit. -/
theorem attempt_steps_le (instructions : Array Instruction) (text : Array Char) (start budget : Nat) :
    (attempt (some budget) instructions text start).steps ≤ budget := by
  by_cases ends : ∃ steps halt, Halts instructions text { position := start } steps halt
  · obtain ⟨steps, halt, halts⟩ := ends
    rw [(attempt_of_halts halts).2]
    split
    · next enough =>
        rcases outcome_of_halts halts with ⟨stop, captures, -, found⟩ | ⟨-, missed⟩
        · rw [found]
          exact enough
        · rw [missed]
          exact enough
    · exact Nat.le_refl budget
  · rw [attempt_endless ends]
    exact Nat.le_refl budget

/-- The step in which the machine halts is the threshold of limits. -/
theorem attempt_threshold {steps : Nat} {halt : Halt}
    (halts : Halts instructions text { position := start } steps halt) :
    1 ≤ steps ∧ (attempt none instructions text start).result?.isSome ∧
      (attempt none instructions text start).steps = steps ∧
      ∀ budget,
        (steps ≤ budget → attempt (some budget) instructions text start =
          attempt none instructions text start) ∧
        (budget < steps → attempt (some budget) instructions text start = .cut budget) := by
  obtain ⟨unlimited, limited⟩ := attempt_of_halts halts
  have positive : 1 ≤ steps := by cases halts <;> omega
  have returned : (attempt none instructions text start).result?.isSome ∧
      (attempt none instructions text start).steps = steps := by
    rw [unlimited]
    rcases outcome_of_halts halts with ⟨stop, captures, -, found⟩ | ⟨-, missed⟩
    · rw [found]
      exact ⟨rfl, rfl⟩
    · rw [missed]
      exact ⟨rfl, rfl⟩
  refine ⟨positive, returned.1, returned.2, ?_⟩
  intro budget
  rw [limited, unlimited]
  exact ⟨fun enough => if_pos enough, fun short => if_neg (Nat.not_le_of_lt short)⟩

theorem attempt_limit_eq {limit : Option Nat}
    (uncut : ∀ steps, attempt limit instructions text start ≠ .cut steps) :
    attempt limit instructions text start = attempt none instructions text start := by
  cases limit with
  | none => rfl
  | some budget => exact (attempt_unlimited_eq uncut).symm

end

/-! ## Searches -/

section

variable {instructions : Array Instruction} {text : Array Char}

theorem search_cut_iff {budget : Nat} :
    (∃ start steps, search (some budget) instructions text = .cut start steps) ↔
      ∃ start < text.size, ¬ Completes instructions text start budget ∧
        ∀ earlier < start, Fails instructions text earlier budget := by
  constructor
  · rintro ⟨start, steps, cut⟩
    rcases search_cases (some budget) instructions text with ⟨last, endsAt⟩ | ⟨-, absent⟩
    · have ends := endsAt.ends
      rw [cut] at ends
      refine ⟨last, endsAt.inside, ?_, ?_⟩
      · exact attempt_cut_iff_not_completes.mp ⟨steps, (ends_cut ends).2⟩
      · intro earlier before
        exact attempt_missed_iff_fails.mp (endsAt.misses earlier (Nat.zero_le earlier) before)
    · rw [absent] at cut
      contradiction
  · rintro ⟨start, inside, incomplete, fails⟩
    obtain ⟨steps, cut⟩ := attempt_cut_iff_not_completes.mpr incomplete
    refine ⟨start, steps, search_of_ends_at ⟨Nat.zero_le start, inside, ?_, ?_⟩⟩
    · intro earlier _ before
      exact attempt_missed_iff_fails.mpr (fails earlier before)
    · rw [cut]
      rfl

/-- A search spends at most its limit on each of the offsets that it tries. -/
theorem search_found_steps {budget start steps : Nat} {spans : List Span}
    (found : search (some budget) instructions text = .found start spans steps) :
    steps ≤ budget * (start + 1) := by
  rcases search_cases (some budget) instructions text with ⟨last, endsAt⟩ | ⟨-, absent⟩
  · have ends := endsAt.ends
    rw [found] at ends
    obtain ⟨rfl, own, attempted, rfl⟩ := ends_found ends
    have before : spent (some budget) instructions text 0 start ≤ start * budget := by
      have bounded := Finset.sum_le_card_nsmul (Finset.Ico 0 start) _ budget
        fun offset _ => attempt_steps_le instructions text offset budget
      rwa [Nat.card_Ico, Nat.nsmul_eq_mul, Nat.sub_zero] at bounded
    have last := attempt_steps_le instructions text start budget
    rw [attempted, Outcome.steps] at last
    calc
      0 + spent (some budget) instructions text 0 start + own ≤ start * budget + budget := by omega
      _ = budget * (start + 1) := by rw [Nat.mul_succ, Nat.mul_comm]
  · rw [absent] at found
    contradiction

theorem misses_limit_eq {limit : Option Nat} {last : Nat}
    (misses : Misses limit instructions text 0 last) :
    Misses none instructions text 0 last ∧
      spent none instructions text 0 last = spent limit instructions text 0 last := by
  have same : ∀ offset < last,
      attempt none instructions text offset = attempt limit instructions text offset := by
    intro offset before
    obtain ⟨steps, missed⟩ := misses offset (Nat.zero_le offset) before
    refine (attempt_limit_eq ?_).symm
    intro cutSteps cut
    rw [missed] at cut
    contradiction
  constructor
  · intro offset after before
    rw [same offset before]
    exact misses offset after before
  · apply Finset.sum_congr rfl
    intro offset member
    rw [same offset (Finset.mem_Ico.mp member).2]

theorem search_limit_eq {limit : Option Nat}
    (uncut : ∀ start steps, search limit instructions text ≠ .cut start steps) :
    search limit instructions text = search none instructions text := by
  rcases search_cases limit instructions text with ⟨start, endsAt⟩ | ⟨misses, absent⟩
  · obtain ⟨misses, spent⟩ := misses_limit_eq endsAt.misses
    have ends := endsAt.ends
    have same : attempt limit instructions text start = attempt none instructions text start := by
      apply attempt_limit_eq
      intro steps cut
      rw [cut] at ends
      exact uncut start steps (Option.some.inj ends).symm
    rw [same, ← spent] at ends
    exact (search_of_ends_at ⟨endsAt.after, endsAt.inside, misses, ends⟩).symm
  · obtain ⟨unlimited, spent⟩ := misses_limit_eq misses
    rw [absent, search_of_misses unlimited, spent]

end

/-- A limit is noticed only by what it cuts off. An attempt that halts without one has a threshold:
limits below it cut the attempt off, and the others do not change what it returns or how long it
takes. A search is cut off by the first offset whose attempt does not miss, if this attempt does not
halt within the limit, and else does not depend on the limit. -/
theorem limits_only_cut (instructions : Array Instruction) (text : Array Char) :
    (∀ start : Nat,
      ((∃ steps halt, Halts instructions text { position := start } steps halt) →
        ∃! threshold, 1 ≤ threshold ∧
          (attempt none instructions text start).result?.isSome ∧
          (attempt none instructions text start).steps = threshold ∧
          ∀ budget,
            (threshold ≤ budget → attempt (some budget) instructions text start =
              attempt none instructions text start) ∧
            (budget < threshold → attempt (some budget) instructions text start = .cut budget)) ∧
      ((¬ ∃ steps halt, Halts instructions text { position := start } steps halt) →
        ∀ budget, attempt (some budget) instructions text start = .cut budget)) ∧
    (∀ budget,
      ((∃ start steps, search (some budget) instructions text = .cut start steps) ↔
        ∃ start < text.size, ¬ Completes instructions text start budget ∧
          ∀ earlier < start, Fails instructions text earlier budget) ∧
      ∀ start spans steps, search (some budget) instructions text = .found start spans steps →
        steps ≤ budget * (start + 1)) ∧
    ∀ limit otherLimit,
      (∀ start steps, search limit instructions text ≠ .cut start steps) →
      (∀ start steps, search otherLimit instructions text ≠ .cut start steps) →
      search limit instructions text = search otherLimit instructions text := by
  refine ⟨fun start => ⟨?_, attempt_endless⟩, fun budget => ⟨search_cut_iff, ?_⟩, ?_⟩
  · rintro ⟨steps, halt, halts⟩
    refine ⟨steps, attempt_threshold halts, ?_⟩
    rintro other ⟨-, -, counted, -⟩
    rw [← counted, (attempt_threshold halts).2.2.1]
  · intro start spans steps
    exact search_found_steps
  · intro limit otherLimit uncut otherUncut
    rw [search_limit_eq uncut, search_limit_eq otherUncut]

/-- At the first offset the program fails, at the second one it matches, and at the third one it
jumps on the spot. -/
theorem limits_only_cut_three_offsets :
    let instructions : Array Instruction :=
      #[.fork 1 3, .char (.exactly 'a'), .finish, .char (.exactly 'b'), .jump 4]
    let text := #['c', 'a', 'b']
    (∃! threshold, 1 ≤ threshold ∧ (attempt none instructions text (1 : Nat)).result?.isSome ∧
      (attempt none instructions text (1 : Nat)).steps = threshold ∧
      ∀ budget,
        (threshold ≤ budget → attempt (some budget) instructions text (1 : Nat) =
          attempt none instructions text (1 : Nat)) ∧
        (budget < threshold → attempt (some budget) instructions text (1 : Nat) = .cut budget)) ∧
    (∀ budget, attempt (some budget) instructions text (2 : Nat) = .cut budget) ∧
    search (some 3) instructions text = .found 1 [⟨1, 2⟩] 6 ∧ 6 ≤ 3 * (1 + 1) ∧
    search (some 3) instructions text = search (some 8) instructions text := by
  intro instructions text
  have matched : run instructions text 3 0 { position := (1 : Nat) } =
      .halted 3 (.matched 2 #[]) := rfl
  obtain ⟨steps, -, halts⟩ := halts_of_run matched
  have loop : ∀ steps halt, ¬ Halts instructions text { pc := 4, position := 3 } steps halt := by
    intro steps halt
    induction steps with
    | zero => nofun
    | succ steps induction =>
        intro loops
        obtain ⟨fewer, same, again⟩ := halts_rest rfl loops
        obtain rfl := Nat.succ.inj same
        exact induction again
  have endless : ¬ ∃ steps halt, Halts instructions text { position := (2 : Nat) } steps halt := by
    rintro ⟨steps, halt, forks⟩
    obtain ⟨_, -, fails⟩ := halts_rest rfl forks
    obtain ⟨_, -, takes⟩ := halts_rest rfl fails
    obtain ⟨_, -, jumps⟩ := halts_rest rfl takes
    exact loop _ _ jumps
  have found : search (some 3) instructions text = .found 1 [⟨1, 2⟩] 6 := rfl
  have other : search (some 8) instructions text = .found 1 [⟨1, 2⟩] 6 := rfl
  obtain ⟨attempts, searches, independent⟩ := limits_only_cut instructions text
  refine ⟨(attempts 1).1 ⟨steps, _, halts⟩, (attempts 2).2 endless, found,
    (searches 3).2 1 _ 6 found, independent (some 3) (some 8) ?_ ?_⟩
  · rw [found]
    exact nofun
  · rw [other]
    exact nofun

end RegexMachine.Machine
