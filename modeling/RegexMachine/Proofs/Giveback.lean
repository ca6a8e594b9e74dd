import RegexMachine.Proofs.Literals

/-!
# Starred characters give back

A loop over one character takes it for as long as there is one to take, and leaves a checkpoint in
front of each. What stands behind the loop is then tried where the run ends and, as long as it fails,
one character further to the front. A run is explored from its front, so the loop behind its first
character is a loop of one round less: by induction, the loop ends as its exit does behind the most
characters, unless that exit fails and the next one is left to be tried.
-/

namespace RegexMachine

open RegexMachine.Machine

inductive Tree.Tests : Tree → (Char → Bool) → Prop
  | any : Tests .any fun _ => true
  | oneOf (negated : Bool) (members : List Char) :
      Tests (.oneOf negated members) fun c => members.contains c != negated
  | char (c : Char) : Tests (.char c) (· == c)

theorem assembled_tests {atom : Tree} {accepts : Char → Bool} (tests : atom.Tests accepts) :
    ∃ test : CharTest, Assembled atom [.char test] ∧ test.accepts = accepts := by
  cases tests with
  | any => exact ⟨_, .any, rfl⟩
  | oneOf negated members =>
      refine ⟨_, .oneOf negated members, ?_⟩
      funext c
      rw [CharTest.accepts, CharSet.contains_of_list]
  | char c => exact ⟨_, .char c, rfl⟩

/-! ## Runs of characters -/

def runLength (accepts : Char → Bool) (text : Array Char) (position : Nat) : Nat :=
  ((text.toList.drop position).takeWhile accepts).length

section

variable {accepts : Char → Bool} {text : Array Char} {position : Nat}

theorem run_length_accepted {c : Char} (read : text[position]? = some c) (accepted : accepts c) :
    runLength accepts text position = runLength accepts text (position + 1) + 1 := by
  have first : text.toList.drop position = c :: text.toList.drop (position + 1) := by
    rw [List.drop_eq_getElem?_toList_append, Array.getElem?_toList, read]
    rfl
  rw [runLength, first, List.takeWhile_cons_of_pos accepted]
  rfl

theorem run_length_pos {count : Nat} (run : runLength accepts text position = count + 1) :
    ∃ c, text[position]? = some c ∧ accepts c = true := by
  rw [runLength, List.drop_eq_getElem?_toList_append, Array.getElem?_toList] at run
  cases read : text[position]? with
  | none =>
      have past := Array.getElem?_eq_none_iff.mp read
      have behind : text.toList.drop (position + 1) = [] :=
        List.drop_eq_nil_of_le (Nat.le_succ_of_le past)
      rw [read, behind] at run
      contradiction
  | some c =>
      refine ⟨c, rfl, ?_⟩
      apply Decidable.by_contra
      intro refused
      rw [read, Option.toList_some, List.singleton_append, List.takeWhile_cons_of_neg refused] at run
      contradiction

theorem run_length_zero (run : runLength accepts text position = 0) {c : Char}
    (read : text[position]? = some c) : accepts c = false := by
  rw [Bool.eq_false_iff]
  intro accepted
  rw [run_length_accepted read accepted] at run
  contradiction

end

/-! ## Loops -/

/-- Of the exits of a loop, each behind some of its `count` rounds, all behind more than `kept` rounds
fail, and so does the one behind `kept` only if there is none before it. -/
structure GivesBack (halts : Nat → Halt) (count kept : Nat) : Prop where
  within : kept ≤ count
  failed : ∀ more ≤ count, kept < more → halts more = .exhausted
  last : halts kept = .exhausted → kept = 0

section

variable {halts : Nat → Halt} {count kept : Nat}

theorem gives_back_next (ofRest : GivesBack (fun more => halts (more + 1)) count kept)
    (found : halts (kept + 1) ≠ .exhausted) : GivesBack halts (count + 1) (kept + 1) where
  within := Nat.succ_le_succ ofRest.within
  failed := by
    intro more within behind
    obtain ⟨more, rfl⟩ := Nat.exists_eq_succ_of_ne_zero (Nat.ne_zero_of_lt behind)
    exact ofRest.failed more (Nat.le_of_succ_le_succ within) (Nat.lt_of_succ_lt_succ behind)
  last := fun failed => absurd failed found

theorem gives_back_first (ofRest : GivesBack (fun more => halts (more + 1)) count kept)
    (failed : halts (kept + 1) = .exhausted) : GivesBack halts (count + 1) 0 where
  within := Nat.zero_le _
  failed := by
    intro more within behind
    obtain ⟨more, rfl⟩ := Nat.exists_eq_succ_of_ne_zero (Nat.ne_zero_of_lt behind)
    have first := ofRest.last failed
    rcases Nat.eq_zero_or_pos more with none | some
    · rw [none, ← first]
      exact failed
    · exact ofRest.failed more (Nat.le_of_succ_le_succ within) (first ▸ some)
  last := fun _ => rfl

end

section

variable {instructions : Array Instruction} {text : Array Char} {head position : Nat}
  {test : CharTest}

/-- Where the loop accepts nothing, its body fails at once. -/
theorem explores_refused (taking : instructions[head]? = some (.char test)) (opened : List Int)
    (closed : Array Span) (run : runLength test.accepts text position = 0) :
    Explores instructions text ⟨head, position, opened, closed⟩ 1 .exhausted := by
  refine .halts ((fate_char taking text position opened closed).trans ?_)
  split
  · next c read => rw [run_length_zero run read, if_neg Bool.false_ne_true]
  · rfl

/-- The loop ends as its exit does behind the last round that is not given back. If that is the last
round of all, three steps were made for each, and two to leave the loop. -/
theorem explores_starred (placed : Placed instructions head (Fragment.star [.char test]))
    (opened : List Int) (closed : Array Span) {halts : Nat → Halt} {count : Nat}
    (run : runLength test.accepts text position = count)
    (exits : ∀ kept ≤ count, ∃ steps, Explores instructions text
      ⟨(head + 3 : Nat), (position + kept : Nat), opened, closed⟩ steps (halts kept)) :
    ∃ kept own steps, GivesBack halts count kept ∧
      Explores instructions text ⟨(head + 3 : Nat), (position + kept : Nat), opened, closed⟩ own
        (halts kept) ∧
      Explores instructions text ⟨head, position, opened, closed⟩ steps (halts kept) ∧
      (kept = count → steps = 3 * count + own + 2) := by
  obtain ⟨fork, placedBody, jump⟩ := placed_star placed
  have taking := (placed_cons placedBody).1
  induction count generalizing position halts with
  | zero =>
      obtain ⟨own, exit⟩ := exits 0 (Nat.le_refl 0)
      have fate := fate_placed fork text position opened closed
      have refused := explores_refused taking opened closed run
      refine ⟨0, own, _, ⟨Nat.le_refl 0, by omega, fun _ => rfl⟩, exit, .second fate refused exit, ?_⟩
      omega
  | succ count induction =>
      have fate := fate_placed fork text position opened closed
      obtain ⟨c, read, accepted⟩ := run_length_pos run
      rw [run_length_accepted read accepted] at run
      have behind : ∀ kept ≤ count, ∃ steps, Explores instructions text
          ⟨(head + 3 : Nat), (position + 1 + kept : Nat), opened, closed⟩ steps (halts (kept + 1)) := by
        intro kept within
        rw [Nat.add_assoc, Nat.add_comm 1]
        exact exits (kept + 1) (Nat.succ_le_succ within)
      obtain ⟨kept, own, steps, givesBack, exit, again, counted⟩ :=
        induction (Nat.succ.inj run) behind
      have taken := fate_char taking text position opened closed
      simp only [read, accepted, if_true] at taken
      have back := fate_placed jump text (position + 1 : Nat) opened closed
      have round := Explores.goes taken (.goes back again)
      by_cases failed : halts (kept + 1) = .exhausted
      · obtain ⟨first, exitFirst⟩ := exits 0 (Nat.zero_le _)
        rw [failed] at round
        refine ⟨0, first, _, gives_back_first givesBack failed, exitFirst,
          .second fate round exitFirst, ?_⟩
        omega
      · rw [Nat.add_assoc, Nat.add_comm 1] at exit
        refine ⟨kept + 1, own, _, gives_back_next givesBack failed, exit,
          .first fate round failed, ?_⟩
        omega

end

/-! ## A starred character in a group, and a word -/

def Tree.runThen (atom : Tree) (word : List Char) : Tree :=
  .sequence (.group (.star atom) :: word.map .char)

def Fragment.runThen (test : CharTest) (word : List Char) : Fragment :=
  (Fragment.star [.char test]).group ++ .ofWord word

theorem assembled_run_then {atom : Tree} {test : CharTest} (ofAtom : Assembled atom [.char test])
    (word : List Char) : Assembled (atom.runThen word) (.runThen test word) := by
  have first := Assembled.group (.star ofAtom)
  cases word with
  | nil => exact .factor first
  | cons c rest => exact .sequence first (assembled_of_word (List.cons_ne_nil c rest))

theorem length_run_then (test : CharTest) (word : List Char) :
    (Fragment.runThen test word).length = 5 + word.length := by
  rw [Fragment.runThen, List.length_append, Fragment.ofWord, List.length_map]
  rfl

section

variable {instructions : Array Instruction} {test : CharTest} {word : List Char}

def haltBehind (word : List Char) (text : Array Char) (start kept : Nat) : Halt :=
  if Occurs word text (start + kept) then
    .matched (start + kept + word.length : Nat) #[⟨start, (start + kept : Nat)⟩]
  else .exhausted

/-- Behind the loop the group is closed, and then the word is looked at. -/
theorem explores_behind {place : Nat} (closes : instructions[place]? = some .closeGroup)
    (placed : Placed instructions (place + 1) (.ofWord word))
    (finish : instructions[place + 1 + word.length]? = some .finish) (text : Array Char)
    (start kept : Nat) :
    ∃ steps, Explores instructions text ⟨place, (start + kept : Nat), [(start : Int)], #[]⟩ steps
        (haltBehind word text start kept) ∧ (word = [] → steps = 2) := by
  have fate := fate_placed closes text (start + kept : Nat) [(start : Int)] #[]
  unfold haltBehind
  split
  · next occurs =>
      have explored := explores_word placed finish [] #[⟨start, (start + kept : Nat)⟩]
        (occurs_iff.mp occurs)
      refine ⟨_, .goes fate explored, ?_⟩
      rintro rfl
      rfl
  · next absent =>
      obtain ⟨steps, within, explored⟩ := explores_other placed []
        #[⟨start, (start + kept : Nat)⟩] (mt occurs_iff.mpr absent)
      refine ⟨_, .goes fate explored, ?_⟩
      rintro rfl
      exact absurd (occurs_iff.mpr List.nil_prefix) absent

theorem explores_run_then (placed : Placed instructions 0 (.runThen test word))
    (finish : instructions[5 + word.length]? = some .finish) (text : Array Char) (start : Nat) :
    ∃ kept steps, GivesBack (haltBehind word text start) (runLength test.accepts text start) kept ∧
      Explores instructions text { position := start } steps (haltBehind word text start kept) ∧
      (word = [] → steps = 3 * runLength test.accepts text start + 5) := by
  obtain ⟨placedGroup, placedWord⟩ := placed_append placed
  obtain ⟨opens, placedStar, closes⟩ := placed_group placedGroup
  have exits := explores_behind closes placedWord finish text start
  obtain ⟨kept, own, steps, givesBack, exit, explored, counted⟩ :=
    explores_starred placedStar [(start : Int)] #[] rfl fun kept _ =>
      (exits kept).imp fun _ behind => behind.1
  have fate := fate_placed opens text start [] #[]
  refine ⟨kept, _, givesBack, .goes fate explored, ?_⟩
  rintro rfl
  -- nothing is left to fail behind the run, so none of it is given back
  have whole : kept = runLength test.accepts text start := by
    apply Nat.le_antisymm givesBack.within
    apply Nat.le_of_not_lt
    intro short
    have failed := givesBack.failed _ (Nat.le_refl _) short
    rw [haltBehind, if_pos (occurs_iff.mpr List.nil_prefix)] at failed
    contradiction
  obtain ⟨exitSteps, behind, short⟩ := exits kept
  obtain ⟨rfl, -⟩ := explores_unique exit behind
  rw [counted whole, short rfl]

end

/-- What an attempt may return: a match that gives back as little of the run as it has to for the word
to stand behind it, or none if the word stands behind no part of the run. -/
inductive KeepsMost (accepts : Char → Bool) (word : List Char) (text : Array Char) (start : Nat) :
    Except Fault (Option Match) → Prop
  | found {kept : Nat} {result : Match} (within : kept ≤ runLength accepts text start)
      (occurs : Occurs word text (start + kept))
      (greatest : ∀ more ≤ runLength accepts text start, kept < more →
        ¬ Occurs word text (start + more))
      (spans : result.spans =
        #[⟨start, (start + kept + word.length : Nat)⟩, ⟨start, (start + kept : Nat)⟩])
      (steps : word = [] → result.steps = 3 * runLength accepts text start + 5) :
      KeepsMost accepts word text start (.ok (some result))
  | missed (absent : ∀ kept ≤ runLength accepts text start, ¬ Occurs word text (start + kept)) :
      KeepsMost accepts word text start (.ok none)

theorem halt_behind_exhausted {word : List Char} {text : Array Char} {start kept : Nat} :
    haltBehind word text start kept = .exhausted ↔ ¬ Occurs word text (start + kept) := by
  rw [haltBehind]
  split <;> simp_all

/-- A captured run of characters and a word behind it: the attempt ends whatever the text is, and it
gives back as little of the longest run as it has to. -/
theorem star_gives_back {atom : Tree} {accepts : Char → Bool} (tests : atom.Tests accepts)
    (word source : List Char) {limits : Limits} (unlimited : limits.maxSteps = none) :
    ∃ program, (atom.runThen word).compile source = .ok program ∧
      ∀ (text : Array Char) (start : Nat),
        KeepsMost accepts word text start (Engine.matchAt limits program text start).run.value := by
  obtain ⟨test, ofAtom, rfl⟩ := assembled_tests tests
  have assembled := assemble_of_assembled (assembled_run_then ofAtom word)
  obtain ⟨program, compiled⟩ := compile_of_assemble assembled source
  refine ⟨program, compiled, ?_⟩
  intro text start
  obtain ⟨fragment, again, placed, finish⟩ := placed_of_compile compiled
  obtain rfl := Except.ok.inj (assembled.symm.trans again)
  rw [length_run_then, Nat.zero_add] at finish
  obtain ⟨kept, steps, givesBack, explored, counted⟩ := explores_run_then placed finish text start
  have tried : ∀ more ≤ runLength test.accepts text start, kept < more →
      ¬ Occurs word text (start + more) :=
    fun more within behind => halt_behind_exhausted.mp (givesBack.failed more within behind)
  rw [Engine.value_match_at, unlimited, attempt_unlimited_explored explored]
  by_cases occurs : Occurs word text (start + kept)
  · rw [haltBehind, if_pos occurs]
    exact .found givesBack.within occurs tried rfl counted
  · have failed := halt_behind_exhausted.mpr occurs
    obtain rfl := givesBack.last failed
    rw [failed]
    refine .missed fun more within => ?_
    rcases Nat.eq_zero_or_pos more with rfl | some
    · exact occurs
    · exact tried more within some

/-- Of the four characters that the class accepts three are given back. -/
theorem star_gives_back_three :
    let atom : Tree := .oneOf true ['c']
    let limits : Limits := { maxSteps := none }
    let text := #['x', 'a', 'b', 'a', 'b', 'c']
    ∃ program result, (atom.runThen ['b', 'a']).compile = .ok program ∧
      (Engine.matchAt limits program text (1 : Nat)).run.value = .ok (some result) ∧
      result.spans = #[⟨1, 4⟩, ⟨1, 2⟩] := by
  intro atom limits text
  have unlimited : limits.maxSteps = none := rfl
  obtain ⟨program, compiled, returned⟩ :=
    star_gives_back (.oneOf true ['c']) ['b', 'a'] [] unlimited
  have run : runLength (fun c => ['c'].contains c != true) text 1 = 4 := by decide
  have only : ∀ kept ≤ 4, Occurs ['b', 'a'] text (1 + kept) → kept = 1 := by decide
  refine ⟨program, ?_⟩
  have keeps := returned text 1
  generalize (Engine.matchAt limits program text (1 : Nat)).run.value = value at keeps ⊢
  cases keeps with
  | @found kept result within occurs greatest spans steps =>
      obtain rfl := only kept (run ▸ within) occurs
      exact ⟨result, compiled, rfl, spans⟩
  | missed absent =>
      have occurs : Occurs ['b', 'a'] text (1 + 1) := by decide
      exact absurd occurs (absent 1 (by decide))

end RegexMachine
