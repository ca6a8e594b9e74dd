import Mathlib.Logic.Relation
import RegexMachine.Proofs.Unlimited

/-!
# States that the machine reaches

A state holds the path that the machine is on and, in its checkpoints, the paths that wait. All of
them come from the path on which the attempt began, and the captures of a path that waits are the
first captures of every path that is tried before it. Whatever holds of the first path and is handed
on from a path to what becomes of it thus holds of the path that the machine is on and of all that it
can go back to.
-/

namespace RegexMachine

/-- How many more groups are open behind the instruction than before it. -/
def Instruction.deepens : Instruction → Int
  | openGroup => 1
  | closeGroup => -1
  | _ => 0

namespace Machine

/-! ## Paths that come from others -/

/-- The path goes on as the other one, or the other is one of the two it forks into. -/
inductive Path.Becomes (instructions : Array Instruction) (text : Array Char) (path : Path) :
    Path → Prop
  | goes {next} (fate : path.fate instructions text = .goes next) : Becomes instructions text path next
  | first {left right} (fate : path.fate instructions text = .forks left right) :
      Becomes instructions text path left
  | second {left right} (fate : path.fate instructions text = .forks left right) :
      Becomes instructions text path right

def Path.Leads (instructions : Array Instruction) (text : Array Char) : Path → Path → Prop :=
  Relation.ReflTransGen (Path.Becomes instructions text)

def Path.Inherited (instructions : Array Instruction) (text : Array Char) (holds : Path → Prop) :
    Prop :=
  ∀ path next, path.Becomes instructions text next → holds path → holds next

section

variable {instructions : Array Instruction} {text : Array Char} {start : Int}

theorem not_becomes_of_halts {path next : Path} {halt : Halt}
    (fate : path.fate instructions text = .halts halt) : ¬ path.Becomes instructions text next := by
  intro becomes
  cases becomes with
  | goes known => cases fate.symm.trans known
  | first known => cases fate.symm.trans known
  | second known => cases fate.symm.trans known

theorem eq_of_goes {path next further : Path} (fate : path.fate instructions text = .goes further)
    (becomes : path.Becomes instructions text next) : next = further := by
  cases becomes with
  | goes known => exact Fate.goes.inj (known.symm.trans fate)
  | first known => cases fate.symm.trans known
  | second known => cases fate.symm.trans known

theorem eq_of_forks {path next left right : Path}
    (fate : path.fate instructions text = .forks left right)
    (becomes : path.Becomes instructions text next) : next = left ∨ next = right := by
  cases becomes with
  | goes known => cases fate.symm.trans known
  | first known => exact .inl (Fate.forks.inj (known.symm.trans fate)).1
  | second known => exact .inr (Fate.forks.inj (known.symm.trans fate)).2

/-- Where control moves in one step, and what it does to the open groups. -/
theorem becomes_cases {path next : Path} (becomes : path.Becomes instructions text next) :
    ∃ instruction, fetch instructions path.pc = some instruction ∧
      ((next.pc = path.pc + 1 ∧ instruction ≠ .finish ∧
          (next.opened.length : Int) = path.opened.length + instruction.deepens) ∨
        (next.pc ∈ instruction.targets ∧ next.opened = path.opened)) := by
  cases becomes with
  | goes fate =>
      obtain ⟨instruction, fetched, meets⟩ := meets_of_fate fate nofun
      refine ⟨instruction, fetched, ?_⟩
      cases meets with
      | taken before read accepted => exact .inl ⟨rfl, nofun, (Int.add_zero _).symm⟩
      | jump target => exact .inr ⟨List.mem_cons_self, rfl⟩
      | anchored holds => exact .inl ⟨rfl, nofun, (Int.add_zero _).symm⟩
      | opened => exact .inl ⟨rfl, nofun, rfl⟩
      | closed known =>
          refine .inl ⟨rfl, nofun, ?_⟩
          rw [known]
          exact (Int.add_sub_cancel _ 1).symm
  | first fate =>
      obtain ⟨instruction, fetched, meets⟩ := meets_of_fate fate nofun
      cases meets with
      | fork first second => exact ⟨_, fetched, .inr ⟨List.mem_cons_self, rfl⟩⟩
  | second fate =>
      obtain ⟨instruction, fetched, meets⟩ := meets_of_fate fate nofun
      cases meets with
      | fork first second =>
          exact ⟨_, fetched, .inr ⟨List.mem_cons_of_mem _ List.mem_cons_self, rfl⟩⟩

theorem holds_of_leads {holds : Path → Prop} (inherited : Path.Inherited instructions text holds)
    {root path : Path} (leads : root.Leads instructions text path) (first : holds root) :
    holds path := by
  induction leads with
  | refl => exact first
  | tail earlier becomes induction => exact inherited _ _ becomes induction

theorem inherited_in_text : Path.Inherited instructions text (InText text start) := by
  intro path next becomes inText
  cases becomes with
  | goes fate => exact (next_of_goes fate inText).1
  | first fate => exact (next_of_forks fate inText).1.1
  | second fate => exact (next_of_forks fate inText).2.1

/-- Where a path can end, and how. -/
theorem halts_cases {path : Path} {halt : Halt} (fate : path.fate instructions text = .halts halt) :
    halt = .exhausted ∨ (halt = .strayed ∧ fetch instructions path.pc = none) ∨
    (halt = .unopened ∧ fetch instructions path.pc = some .closeGroup ∧ path.opened = []) ∨
    (halt = .matched path.position path.closed ∧ fetch instructions path.pc = some .finish) ∨
    (halt = .offText path.position ∧ path.position < text.size ∧
      Indexing.item? text path.position = none) := by
  cases fetched : fetch instructions path.pc with
  | none =>
      rw [Path.fate, fetched] at fate
      exact .inr (.inl ⟨(Fate.halts.inj fate).symm, rfl⟩)
  | some instruction =>
      have meets : Meets text path instruction (.halts halt) := by
        rw [Path.fate, fetched] at fate
        rw [← fate]
        exact meets_meet text path instruction
      cases meets with
      | refused before read refused => exact .inl rfl
      | behind past => exact .inl rfl
      | offText before missing => exact .inr (.inr (.inr (.inr ⟨rfl, before, missing⟩)))
      | unanchored fails => exact .inl rfl
      | unopened none => exact .inr (.inr (.inl ⟨rfl, rfl, none⟩))
      | finish => exact .inr (.inr (.inr (.inl ⟨rfl, rfl⟩)))

/-- From an offset that is not below zero no path comes to ask for a character before the text. -/
theorem not_off_text_of_in_text {path : Path} (nonnegative : 0 ≤ start)
    (inText : InText text start path) {position : Int} :
    path.fate instructions text ≠ .halts (.offText position) := by
  intro fate
  rcases halts_cases fate with exhausted | ⟨strayed, -⟩ | ⟨unopened, -⟩ | ⟨matched, -⟩ |
    ⟨-, before, missing⟩
  · contradiction
  · contradiction
  · contradiction
  · contradiction
  · obtain ⟨place, same⟩ := Int.eq_ofNat_of_zero_le (Int.le_trans nonnegative inText.1)
    rw [same, Indexing.item_nat_cast, Array.getElem?_eq_none_iff] at missing
    omega

/-! ## States that are reached -/

/-- The machine comes to the state in an attempt at `start`, if it is let run long enough. -/
inductive Reachable (instructions : Array Instruction) (text : Array Char) (start : Int) :
    State → Prop
  | initial : Reachable instructions text start { position := start }
  | step {state next} (reachable : Reachable instructions text start state)
      (turn : step instructions text state = .running next) :
      Reachable instructions text start next

/-- The state holds the first of the paths and waits with the others. -/
structure Holds (instructions : Array Instruction) (text : Array Char) (start : Int) (state : State)
    (path : Path) (waiting : List Path) : Prop where
  same : state = path.state (waiting.map Path.checkpoint)
  leads : ∀ node ∈ path :: waiting,
    Path.Leads instructions text { position := start } node
  /-- Going back only ever drops captures that the older path does not have. -/
  older : (path :: waiting).Pairwise fun newer older => older.closed.toList <+: newer.closed.toList

theorem backtrack_held {path next : Path} (waiting : List Path)
    (older : next.closed.toList <+: path.closed.toList) :
    (path.state ((next :: waiting).map Path.checkpoint)).backtrack =
      .running (next.state (waiting.map Path.checkpoint)) := by
  have closed : path.closed.shrink next.closed.size = next.closed := by
    apply Array.toList_inj.mp
    rw [Array.toList_shrink, ← Array.length_toList]
    exact (List.prefix_iff_eq_take.mp older).symm
  simp only [Path.state, List.map_cons, State.backtrack, Path.checkpoint, closed]

theorem holds_step {state next : State} {path : Path} {waiting : List Path}
    (holds : Holds instructions text start state path waiting)
    (turn : step instructions text state = .running next) :
    ∃ newPath newWaiting, Holds instructions text start next newPath newWaiting := by
  obtain ⟨rfl, leads, older⟩ := holds
  rw [List.forall_mem_cons] at leads
  rw [List.pairwise_cons] at older
  rw [step_state] at turn
  cases fate : path.fate instructions text with
  | halts halt =>
      rw [fate] at turn
      by_cases exhausted : halt = .exhausted
      · subst exhausted
        cases waiting with
        | nil => contradiction
        | cons newest rest =>
            have back := backtrack_held rest (older.1 newest List.mem_cons_self)
            exact ⟨newest, rest, (Turn.running.inj (back.symm.trans turn)).symm, leads.2, older.2⟩
      · rw [turn_of_ended exhausted] at turn
        contradiction
  | goes further =>
      rw [fate] at turn
      refine ⟨further, waiting, (Turn.running.inj turn).symm, ?_, ?_⟩
      · exact List.forall_mem_cons.mpr ⟨leads.1.tail (.goes fate), leads.2⟩
      · refine List.pairwise_cons.mpr ⟨?_, older.2⟩
        intro waits member
        refine (older.1 waits member).trans ?_
        rcases closed_of_goes fate with same | ⟨span, pushed⟩
        · rw [same]
        · rw [pushed, Array.toList_push]
          exact List.prefix_append _ _
  | forks left right =>
      rw [fate] at turn
      refine ⟨left, right :: waiting, (Turn.running.inj turn).symm, ?_, ?_⟩
      · simp only [List.forall_mem_cons]
        exact ⟨leads.1.tail (.first fate), leads.1.tail (.second fate), leads.2⟩
      · obtain ⟨⟨first, rfl⟩, second, rfl⟩ := same_of_forks fate
        simp only [List.pairwise_cons, List.forall_mem_cons]
        exact ⟨⟨List.prefix_rfl, older.1⟩, older⟩

theorem holds_of_reachable {state : State} (reachable : Reachable instructions text start state) :
    ∃ path waiting, Holds instructions text start state path waiting := by
  induction reachable with
  | initial =>
      refine ⟨{ position := start }, [], rfl, ?_, List.pairwise_singleton _ _⟩
      exact List.forall_mem_singleton.mpr .refl
  | step reachable turn induction =>
      obtain ⟨path, waiting, holds⟩ := induction
      exact holds_step holds turn

/-- What is inherited on paths holds of every path of a reachable state. -/
theorem inherited_of_reachable {holds : Path → Prop} (inherited : Path.Inherited instructions text holds)
    (first : holds { position := start }) {state : State}
    (reachable : Reachable instructions text start state) :
    ∃ path, ∃ waiting : List Path, state = path.state (waiting.map Path.checkpoint) ∧ holds path ∧
      ∀ waits ∈ waiting, holds waits := by
  obtain ⟨path, waiting, held⟩ := holds_of_reachable reachable
  have all := fun node member => holds_of_leads inherited (held.leads node member) first
  rw [List.forall_mem_cons] at all
  exact ⟨path, waiting, held.same, all⟩

/-! ## Where runs end -/

/-- The machine halts as the path does that it is on, once no other path waits if a test fails. -/
theorem fate_of_halted {path : Path} {checkpoints : List Checkpoint} {halt : Halt}
    (turn : step instructions text (path.state checkpoints) = .halted halt) :
    path.fate instructions text = .halts halt ∧ (halt = .exhausted → checkpoints = []) := by
  rw [step_state] at turn
  cases fate : path.fate instructions text with
  | halts last =>
      rw [fate] at turn
      by_cases exhausted : last = .exhausted
      · subst exhausted
        cases checkpoints with
        | nil =>
            obtain rfl := Turn.halted.inj turn
            exact ⟨rfl, fun _ => rfl⟩
        | cons checkpoint older => contradiction
      · rw [turn_of_ended exhausted] at turn
        obtain rfl := Turn.halted.inj turn
        exact ⟨rfl, fun failed => absurd failed exhausted⟩
  | goes next =>
      rw [fate] at turn
      contradiction
  | forks left right =>
      rw [fate] at turn
      contradiction

theorem run_reachable {state : State} (reachable : Reachable instructions text start state)
    (budget done : Nat) :
    match run instructions text budget done state with
    | .running _ last => Reachable instructions text start last
    | .halted _ halt =>
        ∃ last, Reachable instructions text start last ∧ step instructions text last = .halted halt := by
  induction budget generalizing done state with
  | zero => exact reachable
  | succ budget induction =>
      rw [run_succ]
      cases turn : step instructions text state with
      | running next => exact induction (.step reachable turn) (done + 1)
      | halted halt => exact ⟨state, reachable, turn⟩

/-- An attempt is cut off, or it ends in the way in which some reachable state halts. -/
theorem attempt_reachable (maxSteps : Option Nat) :
    (∃ steps, attempt maxSteps instructions text start = .cut steps) ∨
    ∃ state steps halt, Reachable instructions text start state ∧
      step instructions text state = .halted halt ∧
      attempt maxSteps instructions text start = (Progress.halted steps halt).outcome start := by
  obtain ⟨budget, same⟩ := exists_budget maxSteps instructions text start
  have ends := run_reachable (.initial : Reachable instructions text start _) budget 0
  rw [same]
  simp only [attempt]
  cases reached : run instructions text budget 0 { position := start } with
  | running steps state => exact .inl ⟨steps, rfl⟩
  | halted steps halt =>
      rw [reached] at ends
      obtain ⟨last, reachable, turn⟩ := ends
      exact .inr ⟨last, steps, halt, reachable, turn, rfl⟩

/-- What an attempt finds is read off one path, which has come to the end of the program and has all
that paths inherit. -/
theorem finish_of_found {maxSteps : Option Nat} {holds : Path → Prop}
    (inherited : Path.Inherited instructions text holds) (first : holds { position := start })
    {spans : List Span} {steps : Nat}
    (found : attempt maxSteps instructions text start = .found spans steps) :
    ∃ path, holds path ∧ fetch instructions path.pc = some .finish ∧
      spans = ⟨start, path.position⟩ :: path.closed.toList := by
  rcases attempt_reachable maxSteps with ⟨cutSteps, cut⟩ | ⟨state, total, halt, reachable, turn, ends⟩
  · rw [found] at cut
    contradiction
  · obtain ⟨path, waiting, rfl, ofPath, -⟩ := inherited_of_reachable inherited first reachable
    rw [found] at ends
    rcases halts_cases (fate_of_halted turn).1 with
      rfl | ⟨rfl, -⟩ | ⟨rfl, -⟩ | ⟨rfl, finish⟩ | ⟨rfl, -⟩
    · contradiction
    · contradiction
    · contradiction
    · exact ⟨path, ofPath, finish, (Outcome.found.inj ends).1⟩
    · contradiction

theorem path_of_found {maxSteps : Option Nat} {holds : Path → Prop}
    (inherited : Path.Inherited instructions text holds) (first : holds { position := start })
    {spans : List Span} {steps : Nat}
    (found : attempt maxSteps instructions text start = .found spans steps) :
    ∃ path, holds path ∧ spans = ⟨start, path.position⟩ :: path.closed.toList := by
  obtain ⟨path, ofPath, -, same⟩ := finish_of_found inherited first found
  exact ⟨path, ofPath, same⟩

/-- From an offset that is not below zero an attempt never asks for a character before the text. -/
theorem attempt_ne_off_text (maxSteps : Option Nat) (nonnegative : 0 ≤ start) (position : Int) :
    attempt maxSteps instructions text start ≠ .offText position := by
  rcases attempt_reachable maxSteps with ⟨steps, cut⟩ | ⟨state, steps, halt, reachable, turn, ends⟩
  · rw [cut]
    exact Outcome.noConfusion
  · obtain ⟨path, waiting, rfl, inText, -⟩ := inherited_of_reachable inherited_in_text
      ⟨Int.le_refl _, Int.le_max_left _ _⟩ reachable
    have fate := (fate_of_halted turn).1
    rw [ends]
    cases halt with
    | offText asked => exact absurd fate (not_off_text_of_in_text nonnegative inText)
    | matched stop captures => exact Outcome.noConfusion
    | exhausted => exact Outcome.noConfusion
    | strayed => exact Outcome.noConfusion
    | unopened => exact Outcome.noConfusion

end

end Machine

end RegexMachine
