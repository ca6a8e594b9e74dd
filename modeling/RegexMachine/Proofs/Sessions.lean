import RegexMachine.Session
import RegexMachine.Proofs.Assembly

/-!
# Sessions

A step that fails can be left out of a session: the session behind the steps and the answers to the
others stay the same. As long as no program is taken as it is, the program that is kept is well
formed.
-/

namespace RegexMachine

/-! ## Jobs -/

section

variable {Value Other : Type}

theorem ok_of_job_bind {job : Job Value} {next : Value → Job Other} {outcome : Other}
    (succeeded : (job >>= next).run.value = .ok outcome) :
    ∃ value, job.run.value = .ok value ∧ (next value).run.value = .ok outcome := by
  change (ExceptT.bindCont next job.run.value).value = .ok outcome at succeeded
  cases known : job.run.value with
  | error fault =>
      rw [known] at succeeded
      contradiction
  | ok value =>
      rw [known] at succeeded
      exact ⟨value, rfl, succeeded⟩

theorem ok_of_record {Error : Type} {fault : Error → Fault} {result : Except Error Value}
    {events : List Event} {value : Value}
    (succeeded : (Engine.record fault result events).run.value = .ok value) :
    result = .ok value :=
  (map_error_ok_iff fault result value).mp succeeded

theorem ok_of_require {part : Part} {kept : Option Value} {value : Value}
    (succeeded : (Session.require part kept).run.value = .ok value) : kept = some value := by
  cases kept with
  | none => contradiction
  | some own => rw [Except.ok.inj succeeded]

end

namespace Session

/-! ## One step -/

def Action.Asks : Action → Prop
  | .validate | .find _ | .span _ | .group _ | .groups | .bounds => True
  | _ => False

/-- What a step that succeeds makes of the session. -/
inductive Becomes (session : Session) : Action → Session → Prop
  | setLimits {maxSteps : Option Int} {maxDepth : Int} {limits : Limits}
      (made : Limits.make maxSteps maxDepth = .ok limits) :
      Becomes session (.setLimits maxSteps maxDepth) { session with limits }
  | parse {pattern : List Char} {tree : Tree}
      (parsed : Pattern.parse session.limits pattern = .ok tree) :
      Becomes session (.parse pattern) { session with tree := some tree }
  | useTree {tree : Tree} : Becomes session (.useTree tree) { session with tree := some tree }
  | compile {source : List Char} {tree : Tree} {program : Program}
      (kept : session.tree = some tree) (compiled : tree.compile source = .ok program) :
      Becomes session (.compile source) { session with program := some program }
  | load {instructions : Array Instruction} :
      Becomes session (.load instructions) { session with program := some { instructions } }
  | search {text : Array Char} {program : Program} {result : Option Match}
      (kept : session.program = some program)
      (searched : (Engine.search session.limits program text).run.value = .ok result) :
      Becomes session (.search text) { session with result }
  | matchAt {text : Array Char} {start : Int} {program : Program} {result : Option Match}
      (kept : session.program = some program)
      (matched : (Engine.matchAt session.limits program text start).run.value = .ok result) :
      Becomes session (.matchAt text start) { session with result }
  | useResult {text : Array Char} {spans : Array Span} :
      Becomes session (.useResult text spans) { session with result := some { text, spans } }
  | asked {action : Action} (asks : action.Asks) : Becomes session action session

section

variable {session later : Session} {action : Action} {answer : Answer}

theorem becomes_of_performed (performed : (session.perform action).run.value = .ok (answer, later)) :
    Becomes session action later := by
  cases action with
  | setLimits maxSteps maxDepth =>
      obtain ⟨limits, made, returned⟩ := ok_of_job_bind performed
      cases returned
      exact .setLimits (ok_of_record made)
  | parse pattern =>
      obtain ⟨tree, parsed, returned⟩ := ok_of_job_bind performed
      cases returned
      exact .parse (ok_of_record parsed)
  | useTree tree =>
      cases performed
      exact .useTree
  | compile source =>
      obtain ⟨tree, kept, following⟩ := ok_of_job_bind performed
      obtain ⟨program, compiled, returned⟩ := ok_of_job_bind following
      cases returned
      exact .compile (ok_of_require kept) (ok_of_record compiled)
  | load instructions =>
      cases performed
      exact .load
  | search text =>
      obtain ⟨program, kept, following⟩ := ok_of_job_bind performed
      obtain ⟨result, searched, returned⟩ := ok_of_job_bind following
      cases returned
      exact .search (ok_of_require kept) searched
  | matchAt text start =>
      obtain ⟨program, kept, following⟩ := ok_of_job_bind performed
      obtain ⟨result, matched, returned⟩ := ok_of_job_bind following
      cases returned
      exact .matchAt (ok_of_require kept) matched
  | useResult text spans =>
      cases performed
      exact .useResult
  | validate | find text | span index | group index | bounds =>
      obtain ⟨value, kept, following⟩ := ok_of_job_bind performed
      obtain ⟨own, asked, returned⟩ := ok_of_job_bind following
      cases returned
      exact .asked trivial
  | groups =>
      obtain ⟨value, kept, returned⟩ := ok_of_job_bind performed
      cases returned
      exact .asked trivial

theorem next_eq_or_becomes (session : Session) (action : Action) :
    session.next (session.perform action).run.value = session ∨
      Becomes session action (session.next (session.perform action).run.value) := by
  cases performed : (session.perform action).run.value with
  | error fault => exact .inl rfl
  | ok outcome => exact .inr (becomes_of_performed performed)

end

/-! ## All steps -/

def behind (session : Session) : List Action → Session
  | [] => session
  | action :: actions => (session.next (session.perform action).run.value).behind actions

def succeeding (session : Session) : List Action → List Action
  | [] => []
  | action :: actions =>
      match (session.perform action).run.value with
      | .ok (_, later) => action :: later.succeeding actions
      | .error _ => session.succeeding actions

section

variable {session : Session} {action : Action} {actions : List Action}

theorem perform_all_cons (session : Session) (action : Action) (actions : List Action) :
    (session.performAll (action :: actions)).value =
      (session.perform action).run.value.map Prod.fst ::
        ((session.next (session.perform action).run.value).performAll actions).value := rfl

/-- Steps that fail can be left out. -/
theorem succeeding_suffices (session : Session) (actions : List Action) :
    session.behind (session.succeeding actions) = session.behind actions ∧
      (session.performAll (session.succeeding actions)).value =
        (session.performAll actions).value.filter Except.isOk := by
  induction actions generalizing session with
  | nil => exact ⟨rfl, rfl⟩
  | cons action actions induction =>
      rw [succeeding, behind, perform_all_cons]
      cases performed : (session.perform action).run.value with
      | error fault => exact induction session
      | ok outcome =>
          obtain ⟨answer, later⟩ := outcome
          obtain ⟨same, answers⟩ := induction later
          simp only [behind, perform_all_cons, performed, next]
          exact ⟨same, congrArg (Except.ok answer :: ·) answers⟩

/-! ## The program that is kept -/

def Validated (session : Session) : Prop :=
  ∀ program ∈ session.program, program.validate = .ok ()

def Action.Loads : Action → Prop
  | .load _ => True
  | _ => False

theorem validated_of_becomes {later : Session} (validated : session.Validated)
    (compiles : ¬ action.Loads) (becomes : Becomes session action later) : later.Validated := by
  cases becomes with
  | compile kept compiled =>
      intro program same
      obtain rfl := Option.some.inj same
      exact validate_of_compile compiled
  | load => exact absurd trivial compiles
  | setLimits | parse | useTree | search | matchAt | useResult | asked => exact validated

/-- As long as no program is taken as it is, the one that is kept passes its check. -/
theorem validated_behind (validated : session.Validated)
    (compiles : ∀ action ∈ actions, ¬ action.Loads) : (session.behind actions).Validated := by
  induction actions generalizing session with
  | nil => exact validated
  | cons action actions induction =>
      rw [List.forall_mem_cons] at compiles
      refine induction ?_ compiles.2
      rcases next_eq_or_becomes session action with same | becomes
      · rwa [same]
      · exact validated_of_becomes validated compiles.1 becomes

end

end Session

/-! ## Comparisons -/

theorem source_of_compile {tree : Tree} {source : List Char} {program : Program}
    (compiled : tree.compile source = .ok program) : program.source = source := by
  obtain ⟨fragment, assembled, following⟩ := ok_of_bind compiled
  obtain ⟨valid, checked, same⟩ := ok_of_bind following
  obtain rfl := Except.ok.inj same
  rfl

/-- Patterns with the same tree have the same instructions, and programs are the same exactly for
the same pattern, as they hold their source. -/
theorem compare_alike {left right : List Char} {comparison : Engine.Comparison}
    (compared : (Engine.compare left right).run.value = .ok comparison) :
    (comparison.trees → comparison.instructions) ∧ (comparison.programs ↔ left = right) := by
  obtain ⟨leftTree, leftParsed, following⟩ := ok_of_job_bind compared
  obtain ⟨rightTree, rightParsed, following⟩ := ok_of_job_bind following
  obtain ⟨leftProgram, leftCompiled, following⟩ := ok_of_job_bind following
  obtain ⟨rightProgram, rightCompiled, returned⟩ := ok_of_job_bind following
  cases returned
  have leftCompiled := ok_of_record leftCompiled
  have rightCompiled := ok_of_record rightCompiled
  simp only [decide_eq_true_eq]
  refine ⟨?_, ?_, ?_⟩
  · intro same
    subst same
    obtain ⟨fragment, assembled, instructions⟩ := instructions_of_compile leftCompiled
    obtain ⟨other, otherAssembled, otherInstructions⟩ := instructions_of_compile rightCompiled
    obtain rfl := Except.ok.inj (assembled.symm.trans otherAssembled)
    rw [instructions, otherInstructions]
  · intro same
    rw [← source_of_compile leftCompiled, same, source_of_compile rightCompiled]
  · intro same
    subst same
    obtain rfl := Except.ok.inj ((ok_of_record leftParsed).symm.trans (ok_of_record rightParsed))
    exact Except.ok.inj (leftCompiled.symm.trans rightCompiled)

end RegexMachine
