import RegexMachine.Program.Assembly
import RegexMachine.Proofs.Results

/-!
# Assembled trees

The targets in the fragment of a tree lie in the fragment or directly behind it, so that checking the
program of a tree never finds a stray target: a tree compiles if it can be assembled.
-/

namespace RegexMachine

theorem instructions_of_compile {tree : Tree} {source : List Char} {program : Program}
    (compiled : tree.compile source = .ok program) :
    ∃ fragment, tree.assemble = .ok fragment ∧
      program.instructions = (Fragment.resolve (fragment ++ [.finish])).toArray := by
  obtain ⟨fragment, assembled, following⟩ := ok_of_bind compiled
  obtain ⟨valid, -, same⟩ := ok_of_bind following
  obtain rfl := Except.ok.inj same
  exact ⟨fragment, assembled, rfl⟩

theorem validate_of_compile {tree : Tree} {source : List Char} {program : Program}
    (compiled : tree.compile source = .ok program) : program.validate = .ok () := by
  obtain ⟨fragment, assembled, following⟩ := ok_of_bind compiled
  obtain ⟨valid, checked, same⟩ := ok_of_bind following
  obtain rfl := Except.ok.inj same
  exact checked

/-! ## Fragments rule by rule -/

/-- The fragment of a tree. Alternatives are joined to those before them, and factors put in front
of those behind them. -/
inductive Assembled : Tree → Fragment → Prop
  | anchored {body fragment} (front back : Bool) (ofBody : Assembled body fragment) :
      Assembled (.anchored front body back) (.anchored front fragment back)
  | alternative {tree fragment} (only : Assembled tree fragment) :
      Assembled (.choice [tree]) fragment
  | choice {earlier last first second} (ofEarlier : Assembled (.choice earlier) first)
      (ofLast : Assembled last second) :
      Assembled (.choice (earlier ++ [last])) (first.orElse second)
  | factor {tree fragment} (only : Assembled tree fragment) : Assembled (.sequence [tree]) fragment
  | sequence {factor others first second} (ofFactor : Assembled factor first)
      (ofOthers : Assembled (.sequence others) second) :
      Assembled (.sequence (factor :: others)) (first ++ second)
  | group {body fragment} (ofBody : Assembled body fragment) :
      Assembled (.group body) fragment.group
  | star {body fragment} (ofBody : Assembled body fragment) : Assembled (.star body) fragment.star
  | plus {body fragment} (ofBody : Assembled body fragment) : Assembled (.plus body) fragment.plus
  | optional {body fragment} (ofBody : Assembled body fragment) :
      Assembled (.optional body) fragment.optional
  | range {body fragment least most} (ordered : least ≤ most) (ofBody : Assembled body fragment) :
      Assembled (.range body least most) (fragment.range least most)
  | noCopies {body least most} (none : most ≤ 0) (same : least = most) :
      Assembled (.range body least most) []
  | any : Assembled .any [.char .any]
  | oneOf (negated : Bool) (members : List Char) :
      Assembled (.oneOf negated members) [.char (.oneOf negated (.ofList members))]
  | char (c : Char) : Assembled (.char c) [.char (.exactly c)]

theorem assembled_sequence {factors : List Tree} {fragment : Fragment} (some : factors ≠ [])
    (ofFactors : ∀ factor ∈ factors, ∀ {fragment : Fragment}, factor.assemble = .ok fragment →
      Assembled factor fragment)
    (assembled : Tree.assembleAll factors = .ok fragment) :
    Assembled (.sequence factors) fragment := by
  induction factors generalizing fragment with
  | nil => contradiction
  | cons factor others induction =>
      obtain ⟨first, assembledFirst, following⟩ := ok_of_bind assembled
      obtain ⟨second, assembledOthers, same⟩ := ok_of_bind following
      obtain rfl := Except.ok.inj same
      have ofFirst := ofFactors factor List.mem_cons_self assembledFirst
      cases others with
      | nil =>
          obtain rfl := Except.ok.inj assembledOthers
          rw [List.append_nil]
          exact .factor ofFirst
      | cons other others =>
          refine .sequence ofFirst (induction (List.cons_ne_nil _ _) ?_ assembledOthers)
          exact fun tree member => ofFactors tree (List.mem_cons_of_mem _ member)

theorem assembled_choice {earlier alternatives : List Tree} {first fragment : Fragment}
    (ofEarlier : Assembled (.choice earlier) first)
    (ofAlternatives : ∀ alternative ∈ alternatives, ∀ {fragment : Fragment},
      alternative.assemble = .ok fragment → Assembled alternative fragment)
    (assembled : Tree.assembleOthers first alternatives = .ok fragment) :
    Assembled (.choice (earlier ++ alternatives)) fragment := by
  induction alternatives generalizing earlier first with
  | nil =>
      obtain rfl := Except.ok.inj assembled
      rw [List.append_nil]
      exact ofEarlier
  | cons alternative others induction =>
      obtain ⟨second, assembledSecond, following⟩ := ok_of_bind assembled
      have ofSecond := ofAlternatives alternative List.mem_cons_self assembledSecond
      rw [List.append_cons]
      refine induction (.choice ofEarlier ofSecond) ?_ following
      exact fun tree member => ofAlternatives tree (List.mem_cons_of_mem _ member)

theorem assembled_of_assemble (tree : Tree) {fragment : Fragment}
    (assembled : tree.assemble = .ok fragment) : Assembled tree fragment := by
  induction tree generalizing fragment with
  | anchored front body back induction =>
      obtain ⟨inner, ofBody, same⟩ := ok_of_bind assembled
      obtain rfl := Except.ok.inj same
      exact .anchored front back (induction ofBody)
  | choice alternatives induction =>
      cases alternatives with
      | nil => contradiction
      | cons first others =>
          obtain ⟨inner, ofFirst, following⟩ := ok_of_bind assembled
          refine assembled_choice (.alternative (induction first List.mem_cons_self ofFirst)) ?_ following
          exact fun tree member => induction tree (List.mem_cons_of_mem _ member)
  | sequence factors induction =>
      cases factors with
      | nil => contradiction
      | cons first others => exact assembled_sequence (List.cons_ne_nil _ _) induction assembled
  | group body induction =>
      obtain ⟨inner, ofBody, same⟩ := ok_of_bind assembled
      obtain rfl := Except.ok.inj same
      exact .group (induction ofBody)
  | star body induction =>
      obtain ⟨inner, ofBody, same⟩ := ok_of_bind assembled
      obtain rfl := Except.ok.inj same
      exact .star (induction ofBody)
  | plus body induction =>
      obtain ⟨inner, ofBody, same⟩ := ok_of_bind assembled
      obtain rfl := Except.ok.inj same
      exact .plus (induction ofBody)
  | optional body induction =>
      obtain ⟨inner, ofBody, same⟩ := ok_of_bind assembled
      obtain rfl := Except.ok.inj same
      exact .optional (induction ofBody)
  | range body least most induction =>
      simp only [Tree.assemble] at assembled
      split at assembled
      · contradiction
      · next ordered =>
          split at assembled
          · next empty =>
              obtain rfl := Except.ok.inj assembled
              exact .noCopies empty.1 empty.2
          · obtain ⟨inner, ofBody, same⟩ := ok_of_bind assembled
            obtain rfl := Except.ok.inj same
            exact .range (Int.not_lt.mp ordered) (induction ofBody)
  | any =>
      obtain rfl := Except.ok.inj assembled
      exact .any
  | oneOf negated members =>
      obtain rfl := Except.ok.inj assembled
      exact .oneOf negated members
  | char c =>
      obtain rfl := Except.ok.inj assembled
      exact .char c
  | foreign => contradiction

theorem assemble_others_append (first : Fragment) (earlier later : List Tree) :
    Tree.assembleOthers first (earlier ++ later) =
      Tree.assembleOthers first earlier >>= fun joined => Tree.assembleOthers joined later := by
  induction earlier generalizing first with
  | nil => rfl
  | cons alternative others induction =>
      simp only [List.cons_append, Tree.assembleOthers, bind_assoc, induction]

theorem assemble_choice_concat {earlier : List Tree} {last : Tree} {first second : Fragment}
    (ofEarlier : (Tree.choice earlier).assemble = .ok first) (ofLast : last.assemble = .ok second) :
    (Tree.choice (earlier ++ [last])).assemble = .ok (first.orElse second) := by
  cases earlier with
  | nil => contradiction
  | cons head others =>
      obtain ⟨inner, ofHead, following⟩ := ok_of_bind ofEarlier
      rw [List.cons_append, Tree.assemble, ofHead]
      show Tree.assembleOthers inner (others ++ [last]) = _
      rw [assemble_others_append, following]
      show Tree.assembleOthers first [last] = _
      rw [Tree.assembleOthers, ofLast]
      rfl

theorem range_empty (body : Fragment) {least most : Int} (none : most ≤ 0) (same : least = most) :
    body.range least most = [] := by
  have noCopies : least.toNat = 0 := by omega
  have noOptional : (most - least).toNat = 0 := by omega
  rw [Fragment.range, noCopies, noOptional]
  rfl

/-- The rules leave no choice: a tree has one fragment. -/
theorem assemble_of_assembled {tree : Tree} {fragment : Fragment}
    (assembled : Assembled tree fragment) : tree.assemble = .ok fragment := by
  induction assembled with
  | anchored front back ofBody induction =>
      rw [Tree.assemble, induction]
      rfl
  | alternative only induction =>
      rw [Tree.assemble, induction]
      rfl
  | choice ofEarlier ofLast first second => exact assemble_choice_concat first second
  | @factor tree fragment only induction =>
      rw [Tree.assemble, induction]
      show Except.ok (fragment ++ []) = .ok fragment
      rw [List.append_nil]
  | @sequence factor others first second ofFactor ofOthers induction inductionOthers =>
      cases others with
      | nil => contradiction
      | cons next others =>
          have assembled : Tree.assembleAll (next :: others) = .ok second := inductionOthers
          rw [Tree.assemble, induction, assembled]
          rfl
  | group ofBody induction =>
      rw [Tree.assemble, induction]
      rfl
  | star ofBody induction =>
      rw [Tree.assemble, induction]
      rfl
  | plus ofBody induction =>
      rw [Tree.assemble, induction]
      rfl
  | optional ofBody induction =>
      rw [Tree.assemble, induction]
      rfl
  | @range body fragment least most ordered ofBody induction =>
      rw [Tree.assemble, if_neg (Int.not_lt.mpr ordered)]
      split
      · next empty =>
          rw [range_empty fragment empty.1 empty.2]
          rfl
      · rw [induction]
        rfl
  | @noCopies body least most none same =>
      rw [Tree.assemble, if_neg (by omega), if_pos ⟨none, same⟩]
      rfl
  | any => rfl
  | oneOf negated members => rfl
  | char c => rfl

theorem length_copies (fragment : Fragment) (count : Nat) :
    (List.replicate count fragment).flatten.length = count * fragment.length := by
  rw [List.length_flatten, List.map_replicate, List.sum_replicate_nat]

/-! ## How far targets reach -/

/-- No target lies more than `before` places ahead of the fragment or `after` places behind it. -/
def Fragment.Reaches (before after : Nat) (fragment : Fragment) : Prop :=
  ∀ (offset : Nat) (instruction : Instruction), fragment[offset]? = some instruction →
    ∀ target ∈ instruction.targets,
      -(before : Int) ≤ offset + target ∧ offset + target ≤ fragment.length + after

section

variable {before after : Nat} {body first second : Fragment}

theorem reaches_nil : Fragment.Reaches before after [] := by
  intro offset instruction found
  contradiction

theorem reaches_weaken {wider further : Nat} (reaches : Fragment.Reaches before after body)
    (moreBefore : before ≤ wider) (moreAfter : after ≤ further) :
    Fragment.Reaches wider further body := by
  intro offset instruction found target member
  have bounds := reaches offset instruction found target member
  omega

theorem reaches_cons {instruction : Instruction}
    (ofInstruction : ∀ target ∈ instruction.targets,
      -(before : Int) ≤ target ∧ target ≤ body.length + 1 + after)
    (ofBody : Fragment.Reaches (before + 1) after body) :
    Fragment.Reaches before after (instruction :: body) := by
  intro offset other found target member
  rw [List.length_cons]
  cases offset with
  | zero =>
      obtain rfl := Option.some.inj found
      have bounds := ofInstruction target member
      omega
  | succ offset =>
      have bounds := ofBody offset other found target member
      omega

theorem reaches_jump {distance : Int}
    (bounds : -(before : Int) ≤ distance ∧ distance ≤ body.length + 1 + after)
    (ofBody : Fragment.Reaches (before + 1) after body) :
    Fragment.Reaches before after (.jump distance :: body) := by
  apply reaches_cons _ ofBody
  intro target member
  rw [List.mem_singleton.mp member]
  exact bounds

theorem reaches_fork {toFirst toSecond : Int}
    (ofFirst : -(before : Int) ≤ toFirst ∧ toFirst ≤ body.length + 1 + after)
    (ofSecond : -(before : Int) ≤ toSecond ∧ toSecond ≤ body.length + 1 + after)
    (ofBody : Fragment.Reaches (before + 1) after body) :
    Fragment.Reaches before after (.fork toFirst toSecond :: body) := by
  apply reaches_cons _ ofBody
  intro target member
  rcases List.mem_cons.mp member with rfl | other
  · exact ofFirst
  · rw [List.mem_singleton.mp other]
    exact ofSecond

theorem reaches_append (ofFirst : Fragment.Reaches before (second.length + after) first)
    (ofSecond : Fragment.Reaches (before + first.length) after second) :
    Fragment.Reaches before after (first ++ second) := by
  intro offset instruction found target member
  rw [List.length_append]
  rw [List.getElem?_append] at found
  split at found
  · have bounds := ofFirst offset instruction found target member
    omega
  · have bounds := ofSecond (offset - first.length) instruction found target member
    omega

theorem reaches_plain {instruction : Instruction} (plain : instruction.targets = []) :
    Fragment.Reaches before after [instruction] := by
  refine reaches_cons ?_ reaches_nil
  intro target member
  rw [plain] at member
  contradiction

theorem reaches_or_else (ofFirst : first.Reaches 0 0) (ofSecond : second.Reaches 0 0) :
    (first.orElse second).Reaches 0 0 := by
  unfold Fragment.orElse
  have size : (first ++ .jump (1 + second.length) :: second : Fragment).length =
      first.length + 1 + second.length := by
    rw [List.length_append, List.length_cons]
    omega
  apply reaches_fork
  · omega
  · omega
  · apply reaches_append (reaches_weaken ofFirst (Nat.zero_le _) (Nat.zero_le _))
    apply reaches_jump
    · omega
    · exact reaches_weaken ofSecond (Nat.zero_le _) (Nat.zero_le _)

theorem reaches_optional (ofBody : body.Reaches 0 0) : body.optional.Reaches 0 0 := by
  unfold Fragment.optional
  apply reaches_fork
  · omega
  · omega
  · exact reaches_weaken ofBody (Nat.zero_le _) (Nat.zero_le _)

theorem reaches_star (ofBody : body.Reaches 0 0) : body.star.Reaches 0 0 := by
  unfold Fragment.star
  have size : (body ++ [.jump (-(1 + body.length))] : Fragment).length = body.length + 1 :=
    List.length_append
  apply reaches_fork
  · omega
  · omega
  · apply reaches_append (reaches_weaken ofBody (Nat.zero_le _) (Nat.zero_le _))
    apply reaches_jump _ reaches_nil
    omega

theorem reaches_plus (ofBody : body.Reaches 0 0) : body.plus.Reaches 0 0 := by
  unfold Fragment.plus
  apply reaches_append (reaches_weaken ofBody (Nat.zero_le _) (Nat.zero_le _))
  apply reaches_fork _ _ reaches_nil
  · omega
  · omega

theorem reaches_group (ofBody : body.Reaches 0 0) : body.group.Reaches 0 0 := by
  unfold Fragment.group
  apply reaches_cons
  · intro target member
    contradiction
  · apply reaches_append (reaches_weaken ofBody (Nat.zero_le _) (Nat.zero_le _))
    exact reaches_plain rfl

theorem reaches_copies (ofBody : body.Reaches 0 0) (count : Nat) :
    Fragment.Reaches 0 0 (List.replicate count body).flatten := by
  induction count with
  | zero => exact reaches_nil
  | succ count induction =>
      rw [List.replicate_succ, List.flatten_cons]
      apply reaches_append
      · exact reaches_weaken ofBody (Nat.zero_le _) (Nat.zero_le _)
      · exact reaches_weaken induction (Nat.zero_le _) (Nat.zero_le _)

theorem reaches_range (ofBody : body.Reaches 0 0) (least most : Int) :
    (body.range least most).Reaches 0 0 := by
  unfold Fragment.range
  apply reaches_append
  · exact reaches_weaken (reaches_copies ofBody _) (Nat.zero_le _) (Nat.zero_le _)
  · exact reaches_weaken (reaches_copies (reaches_optional ofBody) _) (Nat.zero_le _) (Nat.zero_le _)

theorem reaches_anchored (ofBody : body.Reaches 0 0) (front back : Bool) :
    (Fragment.anchored front body back).Reaches 0 0 := by
  unfold Fragment.anchored
  apply reaches_append
  · apply reaches_append _ (reaches_weaken ofBody (Nat.zero_le _) (Nat.zero_le _))
    cases front with
    | false => exact reaches_nil
    | true => exact reaches_plain rfl
  · cases back with
    | false => exact reaches_nil
    | true => exact reaches_plain rfl

end

theorem assembled_reaches {tree : Tree} {fragment : Fragment}
    (assembled : Assembled tree fragment) : fragment.Reaches 0 0 := by
  induction assembled with
  | anchored front back ofBody induction => exact reaches_anchored induction front back
  | alternative only induction => exact induction
  | choice ofEarlier ofLast first second => exact reaches_or_else first second
  | factor only induction => exact induction
  | sequence ofFactor ofOthers first second =>
      apply reaches_append
      · exact reaches_weaken first (Nat.zero_le _) (Nat.zero_le _)
      · exact reaches_weaken second (Nat.zero_le _) (Nat.zero_le _)
  | group ofBody induction => exact reaches_group induction
  | star ofBody induction => exact reaches_star induction
  | plus ofBody induction => exact reaches_plus induction
  | optional ofBody induction => exact reaches_optional induction
  | range ordered ofBody induction => exact reaches_range induction _ _
  | noCopies none same => exact reaches_nil
  | any => exact reaches_plain rfl
  | oneOf negated members => exact reaches_plain rfl
  | char c => exact reaches_plain rfl

/-! ## Fragments do not finish -/

theorem finish_not_mem {tree : Tree} {fragment : Fragment} (assembled : Assembled tree fragment) :
    .finish ∉ fragment := by
  induction assembled with
  | anchored front back ofBody induction =>
      cases front <;> cases back <;> simp [Fragment.anchored, induction]
  | alternative only induction => exact induction
  | choice ofEarlier ofLast first second => simp [Fragment.orElse, first, second]
  | factor only induction => exact induction
  | sequence ofFactor ofOthers first second => simp [first, second]
  | group ofBody induction => simp [Fragment.group, induction]
  | star ofBody induction => simp [Fragment.star, induction]
  | plus ofBody induction => simp [Fragment.plus, induction]
  | optional ofBody induction => simp [Fragment.optional, induction]
  | range ordered ofBody induction => simp [Fragment.range, Fragment.optional, induction]
  | noCopies none same => exact List.not_mem_nil
  | any => simp
  | oneOf negated members => simp
  | char c => simp

/-! ## Checking the program of a tree -/

theorem first_stray_eq_none_iff {size place : Nat} {instructions : List Instruction} :
    Program.firstStray? size place instructions = none ↔
      ∀ instruction ∈ instructions, ∀ target ∈ instruction.targets,
        0 ≤ target ∧ target < (size : Int) := by
  induction instructions generalizing place with
  | nil => simp [Program.firstStray?]
  | cons instruction rest induction =>
      have none : (instruction.targets.find? fun target : Int =>
          ¬ (0 ≤ target ∧ target < size)) = none ↔
            ∀ target ∈ instruction.targets, 0 ≤ target ∧ target < (size : Int) := by
        rw [List.find?_eq_none]
        simp
      rw [List.forall_mem_cons, ← none, ← @induction (place + 1), Program.firstStray?]
      generalize instruction.targets.find? (fun target : Int => ¬ (0 ≤ target ∧ target < size)) =
        stray
      cases stray <;> simp

/-- A program is well formed if it ends with `finish` and all targets lie inside. -/
theorem validate_ok_iff (program : Program) :
    program.validate = .ok () ↔ program.instructions.back? = some .finish ∧
      ∀ instruction ∈ program.instructions, ∀ target ∈ instruction.targets,
        0 ≤ target ∧ target < (program.size : Int) := by
  unfold Program.validate
  split
  · next finished =>
      have inside := @first_stray_eq_none_iff program.size 0 program.instructions.toList
      simp only [Array.mem_toList_iff] at inside
      rw [← inside]
      split
      · next error stray => simp [stray]
      · next stray => simp [finished, stray]
  · next unfinished => simp [unfinished]

theorem resolve_finish (fragment : Fragment) :
    Fragment.resolve (fragment ++ [.finish]) = fragment.resolve ++ [.finish] := by
  rw [Fragment.resolve, List.mapIdx_concat]
  rfl

theorem targets_resolve {fragment : Fragment} (reaches : fragment.Reaches 0 0)
    {instruction : Instruction} (member : instruction ∈ fragment.resolve) :
    ∀ target ∈ instruction.targets, 0 ≤ target ∧ target ≤ fragment.length := by
  obtain ⟨offset, inside, rfl⟩ := List.mem_mapIdx.mp member
  intro target among
  rw [Instruction.targets_relocate] at among
  obtain ⟨distance, relative, rfl⟩ := List.mem_map.mp among
  have bounds := reaches offset _ (List.getElem?_eq_getElem inside) distance relative
  omega

theorem compile_of_assemble {tree : Tree} {fragment : Fragment}
    (assembled : tree.assemble = .ok fragment) (source : List Char) :
    ∃ program, tree.compile source = .ok program := by
  let program : Program :=
    { instructions := (Fragment.resolve (fragment ++ [.finish])).toArray
      groups := tree.groupCount
      source }
  have size : program.size = fragment.length + 1 := by
    simp [program, Program.size, Fragment.resolve]
  have valid : program.validate = .ok () := by
    refine (validate_ok_iff program).mpr ⟨by simp [program, resolve_finish], ?_⟩
    intro instruction member target among
    rw [size]
    rw [List.mem_toArray, resolve_finish, List.mem_append] at member
    rcases member with inFragment | last
    · have bounds := targets_resolve (assembled_reaches (assembled_of_assemble tree assembled))
        inFragment target among
      omega
    · rw [List.mem_singleton.mp last] at among
      contradiction
  refine ⟨program, ?_⟩
  rw [Tree.compile, assembled]
  show (program.validate >>= fun _ => pure program) = .ok program
  rw [valid]
  rfl

/-- The program of a tree finishes at its last place and nowhere else. -/
theorem finish_of_compile {tree : Tree} {source : List Char} {program : Program}
    (compiled : tree.compile source = .ok program) (place : Nat) :
    program.instructions[place]? = some .finish ↔ place + 1 = program.size := by
  obtain ⟨fragment, assembled, instructions⟩ := instructions_of_compile compiled
  have absent : .finish ∉ fragment.resolve := by
    intro member
    obtain ⟨offset, inside, moved⟩ := List.mem_mapIdx.mp member
    have same : fragment[offset] = .finish := by
      cases known : fragment[offset] <;> simp [known, Instruction.relocate] at moved
      rfl
    exact finish_not_mem (assembled_of_assemble tree assembled) (same ▸ List.getElem_mem inside)
  rw [resolve_finish] at instructions
  have size : program.size = fragment.resolve.length + 1 := by
    rw [Program.size, instructions, List.size_toArray, List.length_append, List.length_singleton]
  rw [size, instructions, List.getElem?_toArray, List.getElem?_append]
  split
  · next before =>
      constructor
      · intro found
        exact absurd (List.mem_of_getElem? found) absent
      · omega
  · next behind =>
      rw [List.getElem?_singleton]
      split
      · next last => exact iff_of_true rfl (by omega)
      · next past => exact iff_of_false (Option.some_ne_none _).symm (by omega)

/-! ## Which trees compile -/

def Tree.Assembles (tree : Tree) : Prop := ∃ fragment, tree.assemble = .ok fragment

theorem compiles_iff (tree : Tree) (source : List Char) :
    (∃ program, tree.compile source = .ok program) ↔ tree.Assembles := by
  constructor
  · intro compiles
    obtain ⟨program, compiled⟩ := compiles
    obtain ⟨fragment, assembled, -⟩ := instructions_of_compile compiled
    exact ⟨fragment, assembled⟩
  · intro assembles
    obtain ⟨fragment, assembled⟩ := assembles
    exact compile_of_assemble assembled source

theorem assemble_all_ok_iff (factors : List Tree) :
    (∃ fragment, Tree.assembleAll factors = .ok fragment) ↔ ∀ factor ∈ factors, factor.Assembles := by
  induction factors with
  | nil => simp [Tree.assembleAll, pure, Except.pure]
  | cons factor others induction =>
      rw [List.forall_mem_cons, ← induction, Tree.assembleAll, bind_ok_iff]
      simp only [bind_pure_ok_iff, exists_and_right]
      rfl

theorem assemble_others_ok_iff (earlier : Fragment) (alternatives : List Tree) :
    (∃ fragment, Tree.assembleOthers earlier alternatives = .ok fragment) ↔
      ∀ alternative ∈ alternatives, alternative.Assembles := by
  induction alternatives generalizing earlier with
  | nil => simp [Tree.assembleOthers, pure, Except.pure]
  | cons alternative others induction =>
      rw [List.forall_mem_cons, Tree.assembleOthers, bind_ok_iff]
      simp only [induction, exists_and_right]
      rfl

theorem assembles_choice_iff (alternatives : List Tree) :
    (Tree.choice alternatives).Assembles ↔
      alternatives ≠ [] ∧ ∀ alternative ∈ alternatives, alternative.Assembles := by
  unfold Tree.Assembles
  cases alternatives with
  | nil => simp [Tree.assemble, throw, throwThe, MonadExceptOf.throw]
  | cons first others =>
      rw [List.forall_mem_cons, Tree.assemble, bind_ok_iff]
      simp only [assemble_others_ok_iff, exists_and_right]
      simp [Tree.Assembles]

theorem assembles_sequence_iff (factors : List Tree) :
    (Tree.sequence factors).Assembles ↔ factors ≠ [] ∧ ∀ factor ∈ factors, factor.Assembles := by
  rw [← assemble_all_ok_iff]
  unfold Tree.Assembles
  cases factors with
  | nil => simp [Tree.assemble, throw, throwThe, MonadExceptOf.throw]
  | cons first others => simp [Tree.assemble, Tree.assembleAll]

theorem assembles_range_iff (body : Tree) (least most : Int) :
    (Tree.range body least most).Assembles ↔
      least ≤ most ∧ (most ≤ 0 ∧ least = most ∨ body.Assembles) := by
  unfold Tree.Assembles
  rw [Tree.assemble]
  by_cases reversed : most < least
  · have unordered : ¬ least ≤ most := Int.not_le.mpr reversed
    simp [reversed, unordered, throw, throwThe, MonadExceptOf.throw]
  · have ordered : least ≤ most := Int.not_lt.mp reversed
    rw [if_neg reversed]
    by_cases empty : most ≤ 0 ∧ least = most
    · simp [empty, pure, Except.pure]
    · rw [if_neg empty, bind_pure_ok_iff]
      simp [ordered, empty]

end RegexMachine
