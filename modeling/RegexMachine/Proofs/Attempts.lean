import RegexMachine.Proofs.Searches
import RegexMachine.Proofs.Simulation

/-!
# Attempts of compiled programs

An attempt ends with what matching straight off the tree answers, or it is cut off. With a limit that
is high enough it is cut off only where there is no answer.
-/

namespace RegexMachine

open RegexMachine.Machine

theorem compiled_settles {tree : Tree} {source : List Char} {program : Program}
    (compiled : tree.compile source = .ok program) (text : Array Char) (rounds start : Nat) :
    Settles program.instructions text rounds { position := start }
      (tree.answer text rounds start) := by
  obtain ⟨fragment, assembled, placed, finish⟩ := placed_of_compile compiled
  have ofTree := assembled_implements text rounds (assembled_of_assemble tree assembled)
  refine ofTree _ 0 placed [] _ rounds (Nat.le_refl rounds) ?_ start #[]
  intro stop captures
  apply settles_halts
  rw [fate_placed finish]
  rfl

theorem compiled_explores_iff {tree : Tree} {source : List Char} {program : Program}
    (compiled : tree.compile source = .ok program) (text : Array Char) (start : Nat)
    (verdict : Verdict) :
    (∃ steps, Explores program.instructions text { position := start } steps verdict.halt) ↔
      ∃ rounds, tree.answer text rounds start = some verdict := by
  constructor
  · rintro ⟨steps, explored⟩
    obtain ⟨known, answered, same⟩ :=
      (compiled_settles compiled text steps start).known steps _ (Nat.le_refl steps) explored
    rw [halt_injective same] at answered
    exact ⟨steps, answered⟩
  · rintro ⟨rounds, answered⟩
    exact (compiled_settles compiled text rounds start).explored verdict answered

/-- The code of a tree ends in no other way than by a match or by running out of checkpoints. -/
theorem compiled_halt {tree : Tree} {source : List Char} {program : Program}
    (compiled : tree.compile source = .ok program) {text : Array Char} {start steps : Nat}
    {halt : Halt} (explored : Explores program.instructions text { position := start } steps halt) :
    ∃ verdict, tree.answer text steps start = some verdict ∧ verdict.halt = halt :=
  (compiled_settles compiled text steps start).known steps halt (Nat.le_refl steps) explored

/-! ## Results -/

/-- What an attempt returns if it completes: the spans of its match, or nothing if it misses. -/
def Machine.Outcome.result? : Outcome → Option (Option (List Span))
  | .found spans _ => some (some spans)
  | .missed _ => some none
  | .offText _ | .cut _ => none

theorem uncut_of_result {outcome : Outcome} {result : Option (List Span)}
    (completes : outcome.result? = some result) (steps : Nat) : outcome ≠ .cut steps := by
  rintro rfl
  contradiction

def Verdict.result (start : Nat) : Verdict → Option (List Span)
  | matched stop captures => some (⟨start, stop⟩ :: captures.toList)
  | failed => none

def Verdict.outcome (steps start : Nat) (verdict : Verdict) : Outcome :=
  (Progress.halted steps verdict.halt).outcome start

theorem result_of_outcome (steps start : Nat) (verdict : Verdict) :
    (verdict.outcome steps start).result? = some (verdict.result start) := by
  cases verdict <;> rfl

section

variable {tree : Tree} {source : List Char} {program : Program} {text : Array Char} {start : Nat}

/-- As many rounds as steps are enough for an answer. -/
theorem attempt_within (compiled : tree.compile source = .ok program) {budget : Nat}
    (uncut : ∀ steps, attempt (some budget) program.instructions text start ≠ .cut steps) :
    ∃ verdict steps, tree.answer text budget start = some verdict ∧
      attempt (some budget) program.instructions text start = verdict.outcome steps start := by
  obtain ⟨steps, halt, within, explored, same⟩ := explores_of_attempt rfl uncut
  obtain ⟨verdict, answered, rfl⟩ := compiled_halt compiled explored
  exact ⟨verdict, steps, answer_of_more_rounds tree text within answered, same⟩

theorem attempt_uncut (compiled : tree.compile source = .ok program) {maxSteps : Option Nat}
    (uncut : ∀ steps, attempt maxSteps program.instructions text start ≠ .cut steps) :
    ∃ verdict steps rounds, tree.answer text rounds start = some verdict ∧
      attempt maxSteps program.instructions text start = verdict.outcome steps start := by
  cases maxSteps with
  | none =>
      rw [attempt_unlimited] at uncut ⊢
      obtain ⟨verdict, steps, answered, same⟩ := attempt_within compiled uncut
      exact ⟨verdict, steps, _, answered, same⟩
  | some budget =>
      obtain ⟨verdict, steps, answered, same⟩ := attempt_within compiled uncut
      exact ⟨verdict, steps, budget, answered, same⟩

theorem answer_of_result (compiled : tree.compile source = .ok program) {budget : Nat}
    {result : Option (List Span)}
    (completes : (attempt (some budget) program.instructions text start).result? = some result) :
    ∃ verdict, tree.answer text budget start = some verdict ∧ result = verdict.result start := by
  obtain ⟨verdict, steps, answered, same⟩ := attempt_within compiled (uncut_of_result completes)
  rw [same, result_of_outcome] at completes
  exact ⟨verdict, answered, (Option.some.inj completes).symm⟩

theorem attempt_of_answer (compiled : tree.compile source = .ok program) {rounds : Nat}
    {verdict : Verdict} (answered : tree.answer text rounds start = some verdict) :
    ∃ steps, ∀ budget, steps ≤ budget →
      attempt (some budget) program.instructions text start = verdict.outcome steps start := by
  obtain ⟨steps, explored⟩ := (compiled_explores_iff compiled text start verdict).mpr ⟨rounds, answered⟩
  refine ⟨steps, ?_⟩
  intro budget enough
  rw [attempt_explored explored, if_pos enough]
  rfl

theorem answer_of_missed (compiled : tree.compile source = .ok program) {maxSteps : Option Nat}
    {steps : Nat} (missed : attempt maxSteps program.instructions text start = .missed steps) :
    ∃ rounds, tree.answer text rounds start = some .failed := by
  have completes : (attempt maxSteps program.instructions text start).result? = some none := by
    rw [missed]
    rfl
  obtain ⟨verdict, own, rounds, answered, same⟩ :=
    attempt_uncut compiled (uncut_of_result completes)
  cases verdict with
  | matched stop captures =>
      rw [same] at missed
      contradiction
  | failed => exact ⟨rounds, answered⟩

theorem search_uncut (compiled : tree.compile source = .ok program) {maxSteps : Option Nat}
    (uncut : ∀ start steps, search maxSteps program.instructions text ≠ .cut start steps) :
    (∃ start stop captures steps rounds, start < text.size ∧
      tree.answer text rounds start = some (.matched stop captures) ∧
      search maxSteps program.instructions text =
        .found start (⟨start, stop⟩ :: captures.toList) steps) ∨
    ((∀ start < text.size, ∃ rounds, tree.answer text rounds start = some .failed) ∧
      ∃ steps, search maxSteps program.instructions text = .absent steps) := by
  rcases search_cases maxSteps program.instructions text with ⟨start, endsAt⟩ | ⟨misses, absent⟩
  · left
    have ends := endsAt.ends
    have attemptUncut : ∀ steps, attempt maxSteps program.instructions text start ≠ .cut steps := by
      intro steps cut
      rw [cut] at ends
      exact uncut start steps (Option.some.inj ends).symm
    obtain ⟨verdict, own, rounds, answered, same⟩ := attempt_uncut compiled attemptUncut
    rw [same] at ends
    cases verdict with
    | matched stop captures =>
        exact ⟨start, stop, captures, _, rounds, endsAt.inside, answered, (Option.some.inj ends).symm⟩
    | failed => contradiction
  · right
    refine ⟨?_, _, absent⟩
    intro start inside
    obtain ⟨steps, missed⟩ := misses start (Nat.zero_le start) inside
    exact answer_of_missed compiled missed

end

/-- The attempts of a compiled program find the spans that matching straight off the tree finds, miss
where that fails, and are cut off whatever their limit where that does not end. -/
theorem compiled_attempt_iff {tree : Tree} {source : List Char} {program : Program}
    (compiled : tree.compile source = .ok program) (text : Array Char) (start : Nat) :
    (∀ spans,
      (∃ budget steps, attempt (some budget) program.instructions text start = .found spans steps) ↔
        ∃ rounds stop captures, tree.answer text rounds start = some (.matched stop captures) ∧
          spans = ⟨start, stop⟩ :: captures.toList) ∧
    ((∃ budget steps, attempt (some budget) program.instructions text start = .missed steps) ↔
      ∃ rounds, tree.answer text rounds start = some .failed) ∧
    ((∀ budget, attempt (some budget) program.instructions text start = .cut budget) ↔
      ∀ rounds, tree.answer text rounds start = none) := by
  refine ⟨fun spans => ⟨?_, ?_⟩, ⟨?_, ?_⟩, ?_⟩
  · rintro ⟨budget, steps, found⟩
    obtain ⟨verdict, answered, same⟩ := answer_of_result compiled (by rw [found]; rfl)
    cases verdict with
    | matched stop captures => exact ⟨budget, stop, captures, answered, Option.some.inj same⟩
    | failed => contradiction
  · rintro ⟨rounds, stop, captures, answered, rfl⟩
    obtain ⟨steps, found⟩ := attempt_of_answer compiled answered
    exact ⟨steps, steps, found steps (Nat.le_refl steps)⟩
  · rintro ⟨budget, steps, missed⟩
    obtain ⟨verdict, answered, same⟩ := answer_of_result compiled (by rw [missed]; rfl)
    cases verdict with
    | matched stop captures => contradiction
    | failed => exact ⟨budget, answered⟩
  · rintro ⟨rounds, answered⟩
    obtain ⟨steps, missed⟩ := attempt_of_answer compiled answered
    exact ⟨steps, steps, missed steps (Nat.le_refl steps)⟩
  · rw [attempt_cut_iff]
    constructor
    · intro endless rounds
      cases answered : tree.answer text rounds start with
      | none => rfl
      | some verdict =>
          obtain ⟨steps, explored⟩ :=
            (compiled_explores_iff compiled text start verdict).mpr ⟨rounds, answered⟩
          exact absurd explored (endless steps _)
    · intro unknown steps halt explored
      obtain ⟨verdict, answered, -⟩ := compiled_halt compiled explored
      rw [unknown steps] at answered
      contradiction

theorem compiled_attempt_starred_group :
    let tree : Tree := .sequence [.group (.star (.char 'a')), .char 'a']
    ∃ program, tree.compile = .ok program ∧
      ∃ budget steps, attempt (some budget) program.instructions #['a', 'a'] (0 : Nat) =
        .found [⟨0, 2⟩, ⟨0, 1⟩] steps := by
  intro tree
  obtain ⟨program, compiled⟩ : ∃ program, tree.compile = .ok program := ⟨_, rfl⟩
  have found := (compiled_attempt_iff compiled #['a', 'a'] 0).1 [⟨0, 2⟩, ⟨0, 1⟩]
  exact ⟨program, compiled, found.mpr ⟨3, 2, #[⟨0, 1⟩], by decide, rfl⟩⟩

end RegexMachine
