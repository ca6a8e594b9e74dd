import Mathlib.Data.List.Basic
import RegexMachine.Proofs.Assembly
import RegexMachine.Proofs.RoundTrip

/-!
# What is reported of a faulty tree

A node may be faulty by itself, whatever lies below it. A range without copies leaves out its body,
so that the nodes below it are dead: nobody looks for faults in them. A tree compiles if no other
node is faulty; if some are, the fault of the first of them in the order of `walk` is reported.
-/

namespace RegexMachine

namespace Tree

def fault? : Tree → Option CompileError
  | choice [] => some .noAlternatives
  | sequence [] => some .noFactors
  | range _ least most => if most < least then some (.reversedRange least most) else none
  | foreign written below => some (.unknownNode (foreign written below))
  | _ => none

def isHollow : Tree → Bool
  | range _ least most => least = most ∧ most ≤ 0
  | _ => false

/-- A place in a tree: a node, and the nodes above it from the nearest to the root. -/
structure Occurrence where
  node : Tree
  above : List Tree

namespace Occurrence

def Dead (occurrence : Occurrence) : Prop :=
  ∃ ancestor ∈ occurrence.above, ancestor.isHollow = true

instance (occurrence : Occurrence) : Decidable occurrence.Dead :=
  inferInstanceAs (Decidable (∃ ancestor ∈ occurrence.above, ancestor.isHollow = true))

def fault? (occurrence : Occurrence) : Option CompileError :=
  if occurrence.Dead then none else occurrence.node.fault?

end Occurrence

mutual

/-- The places in a tree in the order of `walk`, where the tree stands below the nodes `above`. -/
def occurrences (above : List Tree) : Tree → List Occurrence
  | tree@(anchored _ body _) | tree@(group body) | tree@(star body) | tree@(plus body)
  | tree@(optional body) | tree@(range body _ _) =>
      ⟨tree, above⟩ :: body.occurrences (tree :: above)
  | tree@(choice alternatives) => ⟨tree, above⟩ :: occurrencesOfAll (tree :: above) alternatives
  | tree@(sequence factors) => ⟨tree, above⟩ :: occurrencesOfAll (tree :: above) factors
  | tree@(foreign _ below) => ⟨tree, above⟩ :: occurrencesOfAll (tree :: above) below
  | tree => [⟨tree, above⟩]

def occurrencesOfAll (above : List Tree) : List Tree → List Occurrence
  | [] => []
  | tree :: trees => tree.occurrences above ++ occurrencesOfAll above trees

end

theorem occurrences_of_all_eq_flat_map (above trees : List Tree) :
    occurrencesOfAll above trees = trees.flatMap (occurrences above) := by
  induction trees with
  | nil => rfl
  | cons tree trees induction => simp [occurrencesOfAll, induction]

theorem occurrences_eq_cons_children (above : List Tree) (tree : Tree) :
    tree.occurrences above = ⟨tree, above⟩ :: tree.children.flatMap (occurrences (tree :: above)) := by
  cases tree <;> simp [occurrences, children, occurrences_of_all_eq_flat_map]

theorem induction_children {motive : Tree → Prop}
    (step : ∀ tree, (∀ child ∈ tree.children, motive child) → motive tree) (tree : Tree) :
    motive tree := by
  induction tree with
  | anchored front body back induction => exact step _ (List.forall_mem_singleton.mpr induction)
  | choice alternatives induction => exact step _ induction
  | sequence factors induction => exact step _ induction
  | group body induction => exact step _ (List.forall_mem_singleton.mpr induction)
  | star body induction => exact step _ (List.forall_mem_singleton.mpr induction)
  | plus body induction => exact step _ (List.forall_mem_singleton.mpr induction)
  | optional body induction => exact step _ (List.forall_mem_singleton.mpr induction)
  | range body least most induction => exact step _ (List.forall_mem_singleton.mpr induction)
  | any => exact step _ nofun
  | oneOf negated members => exact step _ nofun
  | char c => exact step _ nofun
  | foreign written below induction => exact step _ induction

/-- The places are those of the nodes that `walk` lists. -/
theorem map_node_occurrences (tree : Tree) (above : List Tree) :
    (tree.occurrences above).map Occurrence.node = tree.walk := by
  induction tree using induction_children generalizing above with
  | step tree induction =>
      rw [occurrences_eq_cons_children, walk_eq_cons_children, List.map_cons, List.map_flatMap]
      rw [List.flatMap_def, List.flatMap_def,
        List.map_congr_left fun child member => induction child member _]

theorem above_of_mem {tree : Tree} {above : List Tree} {occurrence : Occurrence}
    (member : occurrence ∈ tree.occurrences above) :
    above <:+ occurrence.above := by
  induction tree using induction_children generalizing above with
  | step tree induction =>
      rw [occurrences_eq_cons_children] at member
      rcases List.mem_cons.mp member with rfl | below
      · exact List.suffix_rfl
      · obtain ⟨child, isChild, inChild⟩ := List.mem_flatMap.mp below
        exact (List.suffix_cons tree above).trans (induction child isChild inChild)

/-! ## The first fault -/

def firstFault? (above : List Tree) (tree : Tree) : Option CompileError :=
  (tree.occurrences above).findSome? Occurrence.fault?

theorem first_fault_eq (above : List Tree) (tree : Tree) :
    tree.firstFault? above = (Occurrence.fault? ⟨tree, above⟩).or
      (tree.children.findSome? (firstFault? (tree :: above))) := by
  have ofChildren : (tree.children.flatMap (occurrences (tree :: above))).findSome? Occurrence.fault? =
      tree.children.findSome? (firstFault? (tree :: above)) := by
    rw [← List.head?_filterMap, List.filterMap_flatMap, List.head?_flatMap]
    simp only [List.head?_filterMap]
    rfl
  rw [firstFault?, occurrences_eq_cons_children, List.findSome?_cons, ofChildren]
  cases Occurrence.fault? ⟨tree, above⟩ <;> rfl

theorem first_fault_dead {above : List Tree} (dead : ∃ ancestor ∈ above, ancestor.isHollow = true)
    (tree : Tree) : tree.firstFault? above = none := by
  rw [firstFault?, List.findSome?_eq_none_iff]
  intro occurrence member
  obtain ⟨ancestor, isAbove, hollow⟩ := dead
  exact if_pos ⟨ancestor, (above_of_mem member).subset isAbove, hollow⟩

end Tree

/-! ## What assembling a tree fails with -/

def failure? {Error Value : Type} : Except Error Value → Option Error
  | .error error => some error
  | .ok _ => none

theorem failure_eq_some_iff {Error Value : Type} {computed : Except Error Value} {error : Error} :
    failure? computed = some error ↔ computed = .error error := by
  cases computed <;> simp [failure?]

theorem failure_bind {Error Value Result : Type} (computed : Except Error Value)
    {next : Value → Except Error Result} {further : Option Error}
    (following : ∀ value, failure? (next value) = further) :
    failure? (computed >>= next) = (failure? computed).or further := by
  cases computed with
  | error error => rfl
  | ok value => exact following value

theorem failure_bind_pure {Error Value Result : Type} (computed : Except Error Value)
    (next : Value → Result) :
    failure? (computed >>= fun value => pure (next value)) = failure? computed := by
  cases computed <;> rfl

theorem failure_assemble_all (factors : List Tree) :
    failure? (Tree.assembleAll factors) = factors.findSome? fun factor => failure? factor.assemble := by
  induction factors with
  | nil => rfl
  | cons factor others induction =>
      rw [Tree.assembleAll, failure_bind _ fun first => failure_bind_pure _ _, induction,
        List.findSome?_cons]
      cases failure? factor.assemble <;> rfl

theorem failure_assemble_others (earlier : Fragment) (alternatives : List Tree) :
    failure? (Tree.assembleOthers earlier alternatives) =
      alternatives.findSome? fun alternative => failure? alternative.assemble := by
  induction alternatives generalizing earlier with
  | nil => rfl
  | cons alternative others induction =>
      rw [Tree.assembleOthers, failure_bind _ fun second => induction _, List.findSome?_cons]
      cases failure? alternative.assemble <;> rfl

theorem failure_of_body (body : Tree) (build : Fragment → Fragment) :
    failure? (body.assemble >>= fun fragment => pure (build fragment)) =
      (none : Option CompileError).or ([body].findSome? fun child => failure? child.assemble) := by
  rw [failure_bind_pure, Option.none_or, List.findSome?_singleton]

/-- Unless it is a range without copies, a tree fails with its own fault or else with the first
failure of a child. -/
theorem failure_assemble_eq {tree : Tree} (solid : tree.isHollow = false) :
    failure? tree.assemble =
      tree.fault?.or (tree.children.findSome? fun child => failure? child.assemble) := by
  cases tree with
  | anchored front body back => exact failure_of_body body _
  | choice alternatives =>
      cases alternatives with
      | nil => rfl
      | cons first others =>
          rw [Tree.assemble, failure_bind _ fun fragment => failure_assemble_others _ _]
          simp only [Tree.fault?, Tree.children, List.findSome?_cons, Option.none_or]
          cases failure? first.assemble <;> rfl
  | sequence factors =>
      cases factors with
      | nil => rfl
      | cons first others =>
          rw [Tree.assemble, failure_bind _ fun fragment => failure_bind_pure _ _,
            failure_assemble_all]
          simp only [Tree.fault?, Tree.children, List.findSome?_cons, Option.none_or]
          cases failure? first.assemble <;> rfl
  | group body => exact failure_of_body body _
  | star body => exact failure_of_body body _
  | plus body => exact failure_of_body body _
  | optional body => exact failure_of_body body _
  | range body least most =>
      rw [Tree.assemble, Tree.fault?]
      by_cases reversed : most < least
      · rw [if_pos reversed, if_pos reversed]
        rfl
      · have copies : ¬ (most ≤ 0 ∧ least = most) := by
          intro none
          simp [Tree.isHollow, none.1, none.2] at solid
        rw [if_neg reversed, if_neg reversed, if_neg copies]
        exact failure_of_body body _
  | any => rfl
  | oneOf negated members => rfl
  | char c => rfl
  | foreign => rfl

theorem hollow_succeeds {tree : Tree} (hollow : tree.isHollow = true) :
    failure? tree.assemble = none ∧ tree.fault? = none := by
  cases tree with
  | range body least most =>
      obtain ⟨same, none⟩ : least = most ∧ most ≤ 0 := of_decide_eq_true hollow
      have ordered : ¬ most < least := by omega
      rw [Tree.assemble, Tree.fault?, if_neg ordered, if_neg ordered, if_pos ⟨none, same⟩]
      exact ⟨rfl, rfl⟩
  | _ => contradiction

/-- A tree below nodes with copies fails with its first fault. -/
theorem failure_assemble (tree : Tree) {above : List Tree}
    (solid : ∀ ancestor ∈ above, ancestor.isHollow = false) :
    failure? tree.assemble = tree.firstFault? above := by
  induction tree using Tree.induction_children generalizing above with
  | step tree induction =>
      have alive : ¬ (⟨tree, above⟩ : Tree.Occurrence).Dead := by
        rintro ⟨ancestor, isAbove, hollow⟩
        rw [solid ancestor isAbove] at hollow
        contradiction
      rw [Tree.first_fault_eq, Tree.Occurrence.fault?, if_neg alive]
      cases hollow : tree.isHollow with
      | true =>
          have dead : ∃ ancestor ∈ tree :: above, ancestor.isHollow = true :=
            ⟨tree, List.mem_cons_self, hollow⟩
          have noFault : tree.children.findSome? (Tree.firstFault? (tree :: above)) = none :=
            List.findSome?_eq_none_iff.mpr fun child _ => Tree.first_fault_dead dead child
          rw [noFault, (hollow_succeeds hollow).1, (hollow_succeeds hollow).2]
          rfl
      | false =>
          have solidChild : ∀ ancestor ∈ tree :: above, ancestor.isHollow = false :=
            List.forall_mem_cons.mpr ⟨hollow, solid⟩
          have ofChildren : (tree.children.findSome? fun child => failure? child.assemble) =
              tree.children.findSome? (Tree.firstFault? (tree :: above)) := by
            rw [← List.head?_filterMap, ← List.head?_filterMap]
            apply congrArg List.head?
            apply List.filterMap_congr
            intro child member
            exact induction child member solidChild
          rw [failure_assemble_eq hollow, ofChildren]

/-! ## What compiling a tree ends with -/

theorem failure_compile (tree : Tree) (source : List Char) :
    failure? (tree.compile source) = tree.firstFault? [] := by
  rw [← failure_assemble tree (List.forall_mem_nil _)]
  cases assembled : tree.assemble with
  | error error =>
      rw [Tree.compile, assembled]
      rfl
  | ok fragment =>
      obtain ⟨program, compiled⟩ := compile_of_assemble assembled source
      rw [compiled]
      rfl

theorem fault_eq_some_iff {occurrence : Tree.Occurrence} {error : CompileError} :
    occurrence.fault? = some error ↔ ¬ occurrence.Dead ∧ occurrence.node.fault? = some error := by
  unfold Tree.Occurrence.fault?
  split
  · next dead => simp [dead]
  · next alive => simp [alive]

theorem fault_eq_none_iff {occurrence : Tree.Occurrence} :
    occurrence.fault? = none ↔ (¬ occurrence.Dead → occurrence.node.fault? = none) := by
  unfold Tree.Occurrence.fault?
  split
  · next dead => simp [dead]
  · next alive => simp [alive]

theorem compile_fails_iff (tree : Tree) (source : List Char) :
    (∃ error, tree.compile source = .error error) ↔
      ∃ occurrence ∈ tree.occurrences [], ∃ error,
        ¬ occurrence.Dead ∧ occurrence.node.fault? = some error := by
  simp only [← failure_eq_some_iff, failure_compile, ← Option.isSome_iff_exists, Tree.firstFault?,
    List.findSome?_isSome_iff, ← fault_eq_some_iff]

/-! ## What is said of a faulty node -/

/-- A node that is faulty by itself, with what is reported of it and the words of the report. -/
inductive Tree.Complains : Tree → CompileError → String → Prop
  | noAlternatives : Complains (.choice []) .noAlternatives "Branch node has no alternatives"
  | noFactors : Complains (.sequence []) .noFactors "Connect node has no factors"
  | reversedRange (body : Tree) {least most : Int} (reversed : most < least) :
      Complains (.range body least most) (.reversedRange least most)
        ("invalid repeat range \x7b" ++ toString least ++ "," ++ toString most ++
          "\x7d: min is greater than max")
  | unknownNode (written : List Char) (below : List Tree) :
      Complains (.foreign written below) (.unknownNode (.foreign written below))
        ("cannot compile node " ++ String.ofList written)

theorem complains_of_fault {node : Tree} {error : CompileError} (faulty : node.fault? = some error) :
    node.Complains error error.message := by
  cases node with
  | choice alternatives =>
      cases alternatives with
      | nil =>
          obtain rfl := Option.some.inj faulty
          exact .noAlternatives
      | cons => contradiction
  | sequence factors =>
      cases factors with
      | nil =>
          obtain rfl := Option.some.inj faulty
          exact .noFactors
      | cons => contradiction
  | range body least most =>
      rw [Tree.fault?] at faulty
      split at faulty
      · next reversed =>
          obtain rfl := Option.some.inj faulty
          have complains := Tree.Complains.reversedRange body reversed
          rw [← Text.of_list_decimal, ← Text.of_list_decimal] at complains
          exact complains
      · contradiction
  | foreign written below =>
      obtain rfl := Option.some.inj faulty
      exact .unknownNode written below
  | _ => contradiction

theorem fault_of_complains {node : Tree} {error : CompileError} {message : String}
    (complains : node.Complains error message) : node.fault? = some error := by
  cases complains with
  | reversedRange body reversed => exact if_pos reversed
  | _ => rfl

theorem complains_iff {node : Tree} {error : CompileError} :
    node.Complains error error.message ↔ node.fault? = some error :=
  ⟨fault_of_complains, complains_of_fault⟩

theorem silent_iff {node : Tree} :
    (∀ error message, ¬ node.Complains error message) ↔ node.fault? = none := by
  constructor
  · intro silent
    rw [Option.eq_none_iff_forall_not_mem]
    intro error faulty
    exact silent error _ (complains_of_fault faulty)
  · intro sound error message complains
    rw [fault_of_complains complains] at sound
    contradiction

/-! ## Trees of patterns -/

section

open Pattern

theorem canonical_child {rule : Rule} {tree : Tree} (canonical : Canonical rule tree) :
    ∀ child ∈ tree.children, ∃ rule, Canonical rule child := by
  induction canonical with
  | any => nofun
  | char c => nofun
  | oneOf negated members => nofun
  | group ofBody => exact List.forall_mem_singleton.mpr ⟨_, ofBody⟩
  | single ofAtom children => exact children
  | star ofBody => exact List.forall_mem_singleton.mpr ⟨_, ofBody⟩
  | plus ofBody => exact List.forall_mem_singleton.mpr ⟨_, ofBody⟩
  | optional ofBody => exact List.forall_mem_singleton.mpr ⟨_, ofBody⟩
  | range ofBody least most => exact List.forall_mem_singleton.mpr ⟨_, ofBody⟩
  | sequence some ofFactors => exact fun factor member => ⟨_, ofFactors factor member⟩
  | choice some ofAlternatives =>
      exact fun alternative member => ⟨_, ofAlternatives alternative member⟩
  | anchored front back ofBody => exact List.forall_mem_singleton.mpr ⟨_, ofBody⟩

theorem canonical_of_mem_walk {rule : Rule} {tree node : Tree} (canonical : Canonical rule tree)
    (member : node ∈ tree.walk) : ∃ rule, Canonical rule node := by
  induction tree using Tree.induction_children generalizing rule with
  | step tree induction =>
      rw [Tree.walk_eq_cons_children] at member
      rcases List.mem_cons.mp member with rfl | below
      · exact ⟨rule, canonical⟩
      · obtain ⟨child, isChild, inChild⟩ := List.mem_flatMap.mp below
        obtain ⟨ofChild, canonicalChild⟩ := canonical_child canonical child isChild
        exact induction child isChild canonicalChild inChild

/-- The only fault that the node of a pattern can have is a range the wrong way round. -/
theorem reversed_of_fault {rule : Rule} {node : Tree} (canonical : Canonical rule node)
    {error : CompileError} (faulty : node.fault? = some error) :
    ∃ body least most, node = .range body least most ∧ most < least := by
  induction canonical with
  | range ofBody least most =>
      rw [Tree.fault?] at faulty
      split at faulty
      · next reversed => exact ⟨_, _, _, rfl, reversed⟩
      · contradiction
  | single ofAtom atom => exact atom faulty
  | sequence some ofFactors => simp [Tree.fault?, some] at faulty
  | choice some ofAlternatives => simp [Tree.fault?, some] at faulty
  | _ => contradiction

end

/-- A tree compiles unless a node is faulty that is not dead, and then the fault of the first such
node is reported, in the words that `Complains` has for it. The program of a tree finishes at its last
place only, its targets lie inside, and so the check that is made of it never fails. In the tree of a
pattern the only faults are ranges the wrong way round. -/
theorem compile_first_fault (tree : Tree) (source : List Char) :
    (tree.occurrences []).map Tree.Occurrence.node = tree.walk ∧
    (∀ error, tree.compile source = .error error ↔
      ∃ earlier first later, tree.occurrences [] = earlier ++ first :: later ∧
        (¬ first.Dead ∧ first.node.Complains error error.message) ∧
        ∀ occurrence ∈ earlier, ¬ occurrence.Dead →
          ∀ other message, ¬ occurrence.node.Complains other message) ∧
    ((∀ occurrence ∈ tree.occurrences [], ¬ occurrence.Dead →
        ∀ error message, ¬ occurrence.node.Complains error message) →
      ∃ program, tree.compile source = .ok program ∧
        (∀ place, program.instructions[place]? = some .finish ↔ place + 1 = program.size) ∧
        (∀ instruction ∈ program.instructions, ∀ target ∈ instruction.targets,
          0 ≤ target ∧ target < (program.size : Int)) ∧
        program.validate = .ok ()) ∧
    ∀ limits pattern, Pattern.parse limits pattern = .ok tree →
      ((∃ error, tree.compile source = .error error) ↔
        ∃ occurrence ∈ tree.occurrences [], ¬ occurrence.Dead ∧
          ∃ body least most, occurrence.node = .range body least most ∧ most < least) := by
  refine ⟨tree.map_node_occurrences [], ?_, ?_, ?_⟩
  · intro error
    rw [← failure_eq_some_iff, failure_compile, Tree.firstFault?, List.findSome?_eq_some_iff]
    simp only [fault_eq_some_iff, fault_eq_none_iff, complains_iff, silent_iff]
  · intro sound
    have succeeds : failure? (tree.compile source) = none := by
      rw [failure_compile, Tree.firstFault?, List.findSome?_eq_none_iff]
      simpa only [fault_eq_none_iff, silent_iff] using sound
    cases compiled : tree.compile source with
    | error error => simp [compiled, failure?] at succeeds
    | ok program =>
        have valid := validate_of_compile compiled
        exact ⟨program, rfl, finish_of_compile compiled, ((validate_ok_iff program).mp valid).2, valid⟩
  · intro limits pattern parsed
    have canonical := Pattern.canonical_of_derives (Pattern.derives_of_parse parsed)
    rw [compile_fails_iff]
    constructor
    · rintro ⟨occurrence, member, error, alive, faulty⟩
      have inWalk := List.mem_map_of_mem (f := Tree.Occurrence.node) member
      rw [Tree.map_node_occurrences] at inWalk
      obtain ⟨rule, ofNode⟩ := canonical_of_mem_walk canonical inWalk
      exact ⟨occurrence, member, alive, reversed_of_fault ofNode faulty⟩
    · rintro ⟨occurrence, member, alive, body, least, most, same, reversed⟩
      refine ⟨occurrence, member, .reversedRange least most, alive, ?_⟩
      rw [same, Tree.fault?, if_pos reversed]

/-- Below a range without copies a foreign node does no harm; behind it, another one is reported in
its own words, though a node below it is faulty too. -/
theorem compile_first_fault_beside_dead :
    let sound : Tree := .range (.foreign "Lookahead('a')".toList []) 0 0
    let unknown : Tree := .foreign "Backreference(2)".toList [.choice []]
    let tree : Tree := .sequence [sound, .star unknown]
    let reversed : Tree := .range (.char 'b') 2 1
    let parsed : Tree := .anchored false (.choice [.sequence [.range (.group (.choice
      [.sequence [.range (.char 'a') 3 2]])) 0 0], .sequence [reversed]]) false
    let pattern := "(a{3,2}){0,0}|b{2,1}".toList
    (∃ program, sound.compile = .ok program ∧ program.validate = .ok ()) ∧
      tree.compile = .error (.unknownNode unknown) ∧
      (CompileError.unknownNode unknown).message = "cannot compile node Backreference(2)" ∧
      Pattern.parse .standard pattern = .ok parsed ∧
      (∃ occurrence ∈ parsed.occurrences [], ¬ occurrence.Dead ∧
        ∃ body least most, occurrence.node = .range body least most ∧ most < least) ∧
      parsed.compile pattern = .error (.reversedRange 2 1) ∧
      (CompileError.reversedRange 2 1).message =
        "invalid repeat range \x7b2,1\x7d: min is greater than max" := by
  intro sound unknown tree reversed parsed pattern
  have silent : ∀ occurrence ∈ sound.occurrences [], ¬ occurrence.Dead →
      ∀ error message, ¬ occurrence.node.Complains error message := by
    simp only [silent_iff]
    decide
  obtain ⟨program, compiled, -, -, valid⟩ := (compile_first_fault sound []).2.2.1 silent
  have unknownFails : tree.compile = .error (.unknownNode unknown) := by
    refine ((compile_first_fault tree []).2.1 _).mpr
      ⟨(tree.occurrences []).take 4, ⟨unknown, _⟩, (tree.occurrences []).drop 5, rfl, ?_, ?_⟩
    · exact ⟨by decide, .unknownNode _ _⟩
    · simp only [silent_iff]
      decide
  have read : Pattern.parse .standard pattern = .ok parsed := rfl
  have fails : parsed.compile pattern = .error (.reversedRange 2 1) := by
    refine ((compile_first_fault parsed pattern).2.1 _).mpr
      ⟨(parsed.occurrences []).take 10, ⟨reversed, _⟩, (parsed.occurrences []).drop 11, rfl, ?_, ?_⟩
    · exact ⟨by decide, .reversedRange _ (by decide)⟩
    · simp only [silent_iff]
      decide
  have live := ((compile_first_fault parsed pattern).2.2.2 .standard pattern read).mp ⟨_, fails⟩
  exact ⟨⟨program, compiled, valid⟩, unknownFails, rfl, read, live, fails, rfl⟩

end RegexMachine
