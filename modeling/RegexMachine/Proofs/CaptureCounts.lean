import RegexMachine.Proofs.Brackets
import RegexMachine.Proofs.Origins
import RegexMachine.Proofs.Spans

/-!
# How many groups a match reports

On a path, as many groups were opened as brackets were passed. In the program of a tree without loops
control only moves forward, so that a path has passed no more brackets than lie in front of the place
to which it has come; and if there is nothing to choose from, it has passed all of them. What a match
reports is what the one path has closed on which it was found, however many others were given up.
-/

namespace RegexMachine

open RegexMachine.Machine

/-! ## Brackets of a program -/

namespace Tree

theorem group_count_body {tree body : Tree} (only : tree.walk = tree :: body.walk) :
    tree.groupCount = body.groupCount + if tree.isGroup then 1 else 0 := by
  rw [groupCount, only, List.countP_cons]
  rfl

theorem group_count_choice (earlier : List Tree) (last : Tree) :
    (choice (earlier ++ [last])).groupCount = (choice earlier).groupCount + last.groupCount := by
  simp only [groupCount, walk, walk_all_eq_flat_map, List.flatMap_append, List.flatMap_singleton,
    List.countP_cons, List.countP_append, isGroup]
  rfl

theorem group_count_sequence (factor : Tree) (others : List Tree) :
    (sequence (factor :: others)).groupCount =
      factor.groupCount + (sequence others).groupCount := by
  simp only [groupCount, walk, walkAll, List.countP_cons, List.countP_append, isGroup]
  rfl

theorem range_free_of_children {tree : Tree} (own : ∀ body least most, tree ≠ .range body least most)
    (ofChildren : ∀ child ∈ tree.children, child.RangeFree) : tree.RangeFree := by
  intro body least most member
  rw [walk_eq_cons_children] at member
  rcases List.mem_cons.mp member with same | below
  · exact own body least most same.symm
  · obtain ⟨child, among, inChild⟩ := List.mem_flatMap.mp below
    exact ofChildren child among body least most inChild

theorem RangeFree.child {child tree : Tree} (rangeFree : tree.RangeFree)
    (below : child ∈ tree.children) : child.RangeFree :=
  fun body least most member => rangeFree body least most (walk_subset below member)

end Tree

/-- Without ranges nothing is written out more than once or left out. -/
theorem count_open_group {tree : Tree} {fragment : Fragment} (assembled : Assembled tree fragment)
    (rangeFree : tree.RangeFree) : fragment.count .openGroup = tree.groupCount := by
  induction assembled with
  | anchored front back ofBody induction =>
      rw [Tree.group_count_body rfl, ← induction (rangeFree.child List.mem_cons_self)]
      cases front <;> cases back <;> simp [Fragment.anchored, Tree.isGroup]
  | @alternative body fragment only induction =>
      have whole : (Tree.choice [body]).walk = .choice [body] :: body.walk := by
        rw [Tree.walk, Tree.walkAll, Tree.walkAll, List.append_nil]
      rw [Tree.group_count_body whole]
      exact induction (rangeFree.child List.mem_cons_self)
  | @choice earlier last first second ofEarlier ofLast inEarlier inLast =>
      have ofRest : (Tree.choice earlier).RangeFree :=
        Tree.range_free_of_children (fun _ _ _ => Tree.noConfusion) fun child among =>
          rangeFree.child (List.mem_append_left [last] among)
      have inside : last ∈ earlier ++ [last] := List.mem_append_right earlier List.mem_cons_self
      rw [Tree.group_count_choice, ← inEarlier ofRest, ← inLast (rangeFree.child inside)]
      simp [Fragment.orElse]
  | @factor body fragment only induction =>
      have whole : (Tree.sequence [body]).walk = .sequence [body] :: body.walk := by
        rw [Tree.walk, Tree.walkAll, Tree.walkAll, List.append_nil]
      rw [Tree.group_count_body whole]
      exact induction (rangeFree.child List.mem_cons_self)
  | @sequence factor others first second ofFactor ofOthers inFactor inOthers =>
      have ofRest : (Tree.sequence others).RangeFree :=
        Tree.range_free_of_children (fun _ _ _ => Tree.noConfusion) fun child among =>
          rangeFree.child (List.mem_cons_of_mem factor among)
      rw [Tree.group_count_sequence, ← inFactor (rangeFree.child List.mem_cons_self),
        ← inOthers ofRest]
      exact List.count_append
  | group ofBody induction =>
      rw [Tree.group_count_body rfl, ← induction (rangeFree.child List.mem_cons_self)]
      simp [Fragment.group, Tree.isGroup]
  | star ofBody induction =>
      rw [Tree.group_count_body rfl, ← induction (rangeFree.child List.mem_cons_self)]
      simp [Fragment.star, Tree.isGroup]
  | plus ofBody induction =>
      rw [Tree.group_count_body rfl, ← induction (rangeFree.child List.mem_cons_self)]
      simp [Fragment.plus, Tree.isGroup]
  | optional ofBody induction =>
      rw [Tree.group_count_body rfl, ← induction (rangeFree.child List.mem_cons_self)]
      simp [Fragment.optional, Tree.isGroup]
  | @range body fragment least most ordered ofBody induction =>
      exact absurd List.mem_cons_self (rangeFree body least most)
  | @noCopies body least most none same =>
      exact absurd List.mem_cons_self (rangeFree body least most)
  | any => rfl
  | oneOf negated members => rfl
  | char c => rfl

theorem count_resolve (fragment : Fragment) :
    fragment.resolve.count .openGroup = fragment.count .openGroup := by
  induction fragment using List.reverseRecOn with
  | nil => rfl
  | append_singleton fragment instruction induction =>
      rw [Fragment.resolve, List.mapIdx_concat, List.count_append, List.count_append]
      congr 1
      cases instruction <;> rfl

section

variable {tree : Tree} {source : List Char} {program : Program}

theorem groups_of_compile (compiled : tree.compile source = .ok program) :
    program.groups = tree.groupCount := by
  obtain ⟨fragment, assembled, following⟩ := ok_of_bind compiled
  obtain ⟨valid, -, same⟩ := ok_of_bind following
  rw [← Except.ok.inj same]

theorem open_groups_of_compile (compiled : tree.compile source = .ok program)
    (rangeFree : tree.RangeFree) : program.instructions.count .openGroup = program.groups := by
  obtain ⟨fragment, assembled, instructions⟩ := instructions_of_compile compiled
  rw [groups_of_compile compiled, instructions, List.count_toArray, count_resolve,
    List.count_append, count_open_group (assembled_of_assemble tree assembled) rangeFree]
  rfl

/-- An instruction that the program does not end with comes from a node of the tree. -/
theorem emitted_of_fetch (compiled : tree.compile source = .ok program) {pc : Int}
    {instruction : Instruction} (fetched : fetch program.instructions pc = some instruction)
    (unfinished : instruction ≠ .finish) :
    ∃ relative, tree.Emitted relative ∧ instruction = relative.relocate pc := by
  obtain ⟨fragment, assembled, instructions⟩ := instructions_of_compile compiled
  obtain ⟨nonnegative, found⟩ := fetch_eq_some_iff.mp fetched
  rw [instructions, List.getElem?_toArray, Fragment.resolve, List.getElem?_mapIdx] at found
  obtain ⟨relative, among, moved⟩ := Option.map_eq_some_iff.mp found
  rw [Int.toNat_of_nonneg nonnegative] at moved
  refine ⟨relative, ?_, moved.symm⟩
  rcases List.mem_append.mp (List.mem_of_getElem? among) with inFragment | last
  · exact emitted_of_assembled (assembled_of_assemble tree assembled) relative inFragment
  · rw [List.mem_singleton.mp last] at moved
    exact absurd moved.symm unfinished

end

/-! ## Brackets that were passed -/

def openings (instructions : Array Instruction) (place : Int) : Nat :=
  (instructions.toList.take place.toNat).count .openGroup

/-- The groups that a path has opened, closed again or not. -/
def Machine.Path.groups (path : Path) : Nat := path.opened.length + path.closed.size

section

variable {instructions : Array Instruction} {text : Array Char}

theorem openings_mono {first last : Int} (ordered : first ≤ last) :
    openings instructions first ≤ openings instructions last := by
  apply List.Sublist.count_le
  exact (List.take_prefix_take_left (Int.toNat_le_toNat ordered)).sublist

theorem openings_next {pc : Int} {instruction : Instruction}
    (fetched : fetch instructions pc = some instruction) :
    openings instructions (pc + 1) =
      openings instructions pc + if instruction = .openGroup then 1 else 0 := by
  obtain ⟨nonnegative, found⟩ := fetch_eq_some_iff.mp fetched
  have behind : (pc + 1).toNat = pc.toNat + 1 := by omega
  rw [← Array.getElem?_toList] at found
  rw [openings, behind, List.take_add_one, found, List.count_append]
  simp [openings, List.count_cons]

/-- Where control moves in one step, and whether it passes a bracket there. -/
theorem groups_of_becomes {path next : Path} (becomes : path.Becomes instructions text next) :
    ∃ instruction, fetch instructions path.pc = some instruction ∧
      ((next.pc = path.pc + 1 ∧
          next.groups = path.groups + if instruction = .openGroup then 1 else 0) ∨
        (next.pc ∈ instruction.targets ∧ next.groups = path.groups)) := by
  cases becomes with
  | goes fate =>
      obtain ⟨instruction, fetched, meets⟩ := meets_of_fate fate nofun
      refine ⟨instruction, fetched, ?_⟩
      cases meets with
      | taken before read accepted => exact .inl ⟨rfl, rfl⟩
      | jump target => exact .inr ⟨List.mem_cons_self, rfl⟩
      | anchored holds => exact .inl ⟨rfl, rfl⟩
      | opened =>
          refine .inl ⟨rfl, ?_⟩
          show path.opened.length + 1 + path.closed.size = path.opened.length + path.closed.size + 1
          exact Nat.add_right_comm _ _ _
      | closed known =>
          refine .inl ⟨rfl, ?_⟩
          simp only [Path.groups, known, List.length_cons, Array.size_push, reduceCtorEq, if_false]
          omega
  | first fate =>
      obtain ⟨instruction, fetched, meets⟩ := meets_of_fate fate nofun
      cases meets with
      | fork first second => exact ⟨_, fetched, .inr ⟨List.mem_cons_self, rfl⟩⟩
  | second fate =>
      obtain ⟨instruction, fetched, meets⟩ := meets_of_fate fate nofun
      cases meets with
      | fork first second =>
          exact ⟨_, fetched, .inr ⟨List.mem_cons_of_mem _ List.mem_cons_self, rfl⟩⟩

/-- Moving forward, a path passes each bracket once at most. -/
theorem inherited_forward
    (forward : ∀ pc instruction, fetch instructions pc = some instruction →
      ∀ target ∈ instruction.targets, pc ≤ target) :
    Path.Inherited instructions text fun path => path.groups ≤ openings instructions path.pc := by
  intro path next becomes few
  obtain ⟨instruction, fetched, ⟨behind, passed⟩ | ⟨among, same⟩⟩ := groups_of_becomes becomes
  · rw [behind, passed, openings_next fetched]
    exact Nat.add_le_add_right few _
  · rw [same]
    exact Nat.le_trans few (openings_mono (forward _ _ fetched _ among))

/-- Moving straight on, a path passes each bracket. -/
theorem inherited_straight
    (straight : ∀ pc instruction, fetch instructions pc = some instruction →
      instruction.targets = []) :
    Path.Inherited instructions text fun path => path.groups = openings instructions path.pc := by
  intro path next becomes all
  obtain ⟨instruction, fetched, ⟨behind, passed⟩ | ⟨among, same⟩⟩ := groups_of_becomes becomes
  · rw [behind, passed, openings_next fetched, all]
  · rw [straight _ _ fetched] at among
    contradiction

end

/-! ## Programs of trees without loops -/

section

variable {tree : Tree} {source : List Char} {program : Program}

theorem forward_of_compile (compiled : tree.compile source = .ok program) (loopFree : tree.LoopFree)
    (pc : Int) (instruction : Instruction)
    (fetched : fetch program.instructions pc = some instruction) :
    ∀ target ∈ instruction.targets, pc ≤ target := by
  intro target among
  have unfinished : instruction ≠ .finish := by
    rintro rfl
    contradiction
  obtain ⟨relative, emitted, rfl⟩ := emitted_of_fetch compiled fetched unfinished
  rw [Instruction.targets_relocate] at among
  obtain ⟨distance, named, rfl⟩ := List.mem_map.mp among
  have positive := Tree.forward_of_emitted loopFree emitted distance named
  omega

theorem straight_of_compile (compiled : tree.compile source = .ok program)
    (loopFree : tree.LoopFree) (rangeFree : tree.RangeFree) (undivided : tree.Undivided) (pc : Int)
    (instruction : Instruction) (fetched : fetch program.instructions pc = some instruction) :
    instruction.targets = [] := by
  by_cases finished : instruction = .finish
  · rw [finished]
    rfl
  · obtain ⟨relative, emitted, rfl⟩ := emitted_of_fetch compiled fetched finished
    rw [Instruction.targets_relocate,
      Tree.straight_of_emitted loopFree rangeFree undivided emitted]
    rfl

/-- All brackets lie in front of the end of the program. -/
theorem openings_finish (compiled : tree.compile source = .ok program) {pc : Int}
    (finish : fetch program.instructions pc = some .finish) :
    openings program.instructions pc = program.instructions.count .openGroup := by
  have behind := openings_next finish
  obtain ⟨nonnegative, found⟩ := fetch_eq_some_iff.mp finish
  have last := (finish_of_compile compiled pc.toNat).mp found
  have whole : (pc + 1).toNat = program.instructions.toList.length := by
    rw [Array.length_toList, ← Program.size, ← last]
    omega
  rw [openings, whole, List.take_length, Array.count_toList] at behind
  exact behind.symm

/-- At the end of the program all brackets lie behind the path and no group is open. -/
theorem closed_of_found (compiled : tree.compile source = .ok program) {text : Array Char}
    {start : Int} {holds : Path → Prop}
    (inherited : Path.Inherited program.instructions text holds) (first : holds { position := start })
    {maxSteps : Option Nat} {spans : List Span} {steps : Nat}
    (attempted : attempt maxSteps program.instructions text start = .found spans steps) :
    ∃ path, holds path ∧
      openings program.instructions path.pc = program.instructions.count .openGroup ∧
      path.groups = path.closed.size ∧ spans = ⟨start, path.position⟩ :: path.closed.toList := by
  have nested : Path.Inherited program.instructions text fun path =>
      (path.opened.length : Int) = nesting program.instructions path.pc :=
    inherited_nesting (compiled_level compiled)
  have both : Path.Inherited program.instructions text fun path =>
      holds path ∧ (path.opened.length : Int) = nesting program.instructions path.pc :=
    fun path next becomes held =>
      ⟨inherited path next becomes held.1, nested path next becomes held.2⟩
  obtain ⟨path, ⟨ofPath, balanced⟩, finish, same⟩ := finish_of_found both ⟨first, rfl⟩ attempted
  rw [nesting_finish compiled finish] at balanced
  have none : path.opened.length = 0 := Int.ofNat.inj balanced
  refine ⟨path, ofPath, openings_finish compiled finish, ?_, same⟩
  rw [Path.groups, none, Nat.zero_add]

end

/-- Without loops a match reports no more groups than the program has brackets; these are the groups of
the pattern if no range writes them out, and all of them are reported if there is nothing to choose
from. -/
theorem loop_free_captures {tree : Tree} {source : List Char} {program : Program}
    (compiled : tree.compile source = .ok program) (loopFree : tree.LoopFree) :
    (tree.RangeFree → program.instructions.count .openGroup = program.groups) ∧
      ∀ (limits : Limits) (text : Array Char) (start : Int) (result : Match),
        (Engine.matchAt limits program text start).run.value = .ok (some result) →
        ∃ stop captures, result.spans.toList = ⟨start, stop⟩ :: captures ∧
          captures.length ≤ program.instructions.count .openGroup ∧
          (tree.RangeFree → tree.Undivided → captures.length = program.groups) := by
  refine ⟨open_groups_of_compile compiled, ?_⟩
  intro limits text start result found
  obtain ⟨spans, steps, attempted, rfl⟩ := attempt_of_match_at found
  have forward := forward_of_compile compiled loopFree
  obtain ⟨path, few, passed, closed, rfl⟩ :=
    closed_of_found compiled (inherited_forward forward) (Nat.zero_le _) attempted
  rw [passed, closed] at few
  refine ⟨path.position, path.closed.toList, rfl, few, ?_⟩
  intro rangeFree undivided
  have straight := straight_of_compile compiled loopFree rangeFree undivided
  -- this path may be another one, but the same captures are read off it
  obtain ⟨same, all, passedAll, closedAll, spans⟩ :=
    closed_of_found compiled (inherited_straight straight) rfl attempted
  rw [(List.cons.inj spans).2, Array.length_toList, ← closedAll, all, passedAll]
  exact open_groups_of_compile compiled rangeFree

/-- One group inside of another, and a choice with one alternative. -/
theorem loop_free_captures_three :
    let tree : Tree := .sequence [.group (.group (.char 'a')), .choice [.group .any]]
    ∃ program result, tree.compile = .ok program ∧
      (Engine.matchAt .standard program #['a', 'b'] 0).run.value = .ok (some result) ∧
      program.instructions.count .openGroup = 3 ∧ result.spans.toList.length = 4 := by
  intro tree
  have loopFree : tree.LoopFree := by
    intro body
    simp [tree, Tree.walk, Tree.walkAll]
  have rangeFree : tree.RangeFree := by
    intro body least most
    simp [tree, Tree.walk, Tree.walkAll]
  have undivided : tree.Undivided := by
    simp [tree, Tree.Undivided, Tree.walk, Tree.walkAll]
  obtain ⟨program, result, compiled, found, three⟩ : ∃ program result, tree.compile = .ok program ∧
      (Engine.matchAt .standard program #['a', 'b'] 0).run.value = .ok (some result) ∧
      program.groups = 3 := ⟨_, _, rfl, rfl, rfl⟩
  obtain ⟨counted, reports⟩ := loop_free_captures compiled loopFree
  obtain ⟨stop, captures, spans, -, all⟩ := reports .standard _ 0 result found
  refine ⟨program, result, compiled, found, (counted rangeFree).trans three, ?_⟩
  rw [spans, List.length_cons, all rangeFree undivided, three]

end RegexMachine
