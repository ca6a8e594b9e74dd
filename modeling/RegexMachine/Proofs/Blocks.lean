import RegexMachine.Proofs.Origins
import RegexMachine.Proofs.Simulation

/-!
# The code of a subtree is a block

A node puts instructions around the code of its children, and these aim at the beginning or the end of
a child or past it, never into it. This is handed down from a node to what lies below its children, since
the beginning of a child, if it lies in the code of a grandchild, is the beginning of that code, and the
end likewise. Distances do not change when code is put somewhere else, so in the whole program the code
of a subtree is what the subtree alone compiles to, with the place of the block added to its targets.
-/

namespace RegexMachine

/-! ## Where the code of a subtree begins -/

namespace Tree

mutual

def codeSize : Tree → Nat
  | anchored front body back => front.toNat + body.codeSize + back.toNat
  | choice alternatives => codeSizeOfAll alternatives + 2 * (alternatives.length - 1)
  | sequence factors => codeSizeOfAll factors
  | group body | star body => body.codeSize + 2
  | plus body | optional body => body.codeSize + 1
  | range body least most =>
      least.toNat * body.codeSize + (most - least).toNat * (1 + body.codeSize)
  | any | oneOf _ _ | char _ => 1
  | foreign _ _ => 0

def codeSizeOfAll : List Tree → Nat
  | [] => 0
  | tree :: trees => tree.codeSize + codeSizeOfAll trees

end

/-- In the code of the tree, that of `part` begins at `offset`. In front of an alternative there is a fork
for each of the others, and a jump behind each of those before it. A range has a copy of its body for each
repetition, and none if nothing may be repeated. -/
inductive BeginsAt (part : Tree) : Tree → Nat → Prop
  | itself : BeginsAt part part 0
  | anchored {body offset} (front back : Bool) (inner : BeginsAt part body offset) :
      BeginsAt part (.anchored front body back) (front.toNat + offset)
  | choice {alternative offset} (before after : List Tree) (inner : BeginsAt part alternative offset) :
      BeginsAt part (.choice (before ++ alternative :: after))
        (before.length + after.length + (codeSizeOfAll before + before.length) + offset)
  | sequence {factor offset} (before after : List Tree) (inner : BeginsAt part factor offset) :
      BeginsAt part (.sequence (before ++ factor :: after)) (codeSizeOfAll before + offset)
  | group {body offset} (inner : BeginsAt part body offset) : BeginsAt part (.group body) (1 + offset)
  | star {body offset} (inner : BeginsAt part body offset) : BeginsAt part (.star body) (1 + offset)
  | plus {body offset} (inner : BeginsAt part body offset) : BeginsAt part (.plus body) (0 + offset)
  | optional {body offset} (inner : BeginsAt part body offset) :
      BeginsAt part (.optional body) (1 + offset)
  | mandatory {body offset copy} {least most : Int} (counted : copy < least.toNat)
      (inner : BeginsAt part body offset) :
      BeginsAt part (.range body least most) (copy * body.codeSize + offset)
  | further {body offset copy} {least most : Int} (counted : copy < (most - least).toNat)
      (inner : BeginsAt part body offset) :
      BeginsAt part (.range body least most)
        (least.toNat * body.codeSize + (copy * (1 + body.codeSize) + 1) + offset)

theorem code_size_of_all_append (before after : List Tree) :
    codeSizeOfAll (before ++ after) = codeSizeOfAll before + codeSizeOfAll after := by
  induction before with
  | nil => exact (Nat.zero_add _).symm
  | cons tree before induction =>
      rw [List.cons_append, codeSizeOfAll, codeSizeOfAll, induction, Nat.add_assoc]

end Tree

theorem length_assembled {tree : Tree} {fragment : Fragment} (assembled : Assembled tree fragment) :
    fragment.length = tree.codeSize := by
  induction assembled with
  | anchored front back ofBody induction =>
      cases front <;> cases back <;> simp [Fragment.anchored, Tree.codeSize, induction] <;> omega
  | alternative only induction => simp [Tree.codeSize, Tree.codeSizeOfAll, induction]
  | @choice earlier last first second ofEarlier ofLast ofFirst ofSecond =>
      have some := assembled_choice_nonempty ofEarlier
      simp only [Fragment.length_or_else, Tree.codeSize, Tree.code_size_of_all_append, Tree.codeSizeOfAll,
        List.length_append, List.length_singleton] at ofFirst ⊢
      omega
  | factor only induction => simp [Tree.codeSize, Tree.codeSizeOfAll, induction]
  | sequence ofFactor ofOthers first second =>
      rw [List.length_append, first, second]
      rfl
  | group ofBody induction =>
      rw [Fragment.length_group, Tree.codeSize]
      omega
  | star ofBody induction =>
      rw [Fragment.length_star, Tree.codeSize]
      omega
  | plus ofBody induction => rw [Fragment.length_plus, Tree.codeSize, induction]
  | optional ofBody induction =>
      rw [Fragment.length_optional, Tree.codeSize]
      omega
  | range ordered ofBody induction =>
      rw [Fragment.range, List.length_append, length_copies, length_copies, Fragment.length_optional,
        Tree.codeSize, induction]
  | @noCopies body least most none same =>
      have noneMandatory : least.toNat = 0 := by omega
      have noneFurther : (most - least).toNat = 0 := by omega
      simp [Tree.codeSize, noneMandatory, noneFurther]
  | any => rfl
  | oneOf negated members => rfl
  | char c => rfl

/-! ## Fragments inside fragments -/

namespace Fragment

/-- All targets in the fragment, as places counted from its beginning, are allowed. -/
def Aims (allowed : Int → Prop) (fragment : Fragment) : Prop :=
  ∀ (place : Nat) (instruction : Instruction), fragment[place]? = some instruction →
    ∀ target ∈ instruction.targets, allowed (place + target)

/-- The place does not lie in a block of this length that begins at zero, unless it is one of its ends. -/
def Spares (length : Nat) (place : Int) : Prop :=
  0 ≤ place → place ≤ length → place = 0 ∨ place = length

/-- The part lies in the fragment at `offset`, and what is around it does not aim into it. -/
structure Encloses (whole : Fragment) (offset : Nat) (part : Fragment) : Prop where
  fits : offset + part.length ≤ whole.length
  placed : ∀ place < part.length, whole[offset + place]? = part[place]?
  spared : ∀ (place : Nat) (instruction : Instruction), whole[place]? = some instruction →
    place < offset ∨ offset + part.length ≤ place →
      ∀ target ∈ instruction.targets, Spares part.length (place + target - offset)

section

variable {allowed : Int → Prop} {body first second : Fragment}

theorem aims_nil : Aims allowed [] := by
  intro place instruction found
  contradiction

theorem aims_cons {instruction : Instruction}
    (ofInstruction : ∀ target ∈ instruction.targets, allowed target)
    (ofBody : Aims (fun place => allowed (place + 1)) body) : Aims allowed (instruction :: body) := by
  intro place other found target member
  cases place with
  | zero =>
      obtain rfl := Option.some.inj found
      rw [Int.natCast_zero, Int.zero_add]
      exact ofInstruction target member
  | succ place =>
      have further : allowed (place + target + 1) := ofBody place other found target member
      rwa [Int.add_right_comm] at further

theorem aims_append (ofFirst : Aims allowed first)
    (ofSecond : Aims (fun place => allowed (place + first.length)) second) :
    Aims allowed (first ++ second) := by
  intro place instruction found target member
  rw [List.getElem?_append] at found
  split at found
  · exact ofFirst place instruction found target member
  · have further : allowed ((place - first.length : Nat) + target + first.length) :=
      ofSecond (place - first.length) instruction found target member
    have same : ((place - first.length : Nat) : Int) + target + first.length = place + target := by
      omega
    rwa [same] at further

theorem aims_of_reaches (reaches : body.Reaches 0 0)
    (inside : ∀ place : Int, 0 ≤ place → place ≤ body.length → allowed place) :
    Aims allowed body := by
  intro place instruction found target member
  have bounds := reaches place instruction found target member
  apply inside
  · omega
  · omega

end

section

variable {whole middle part before after body first second : Fragment} {outer inner : Nat}

theorem encloses_self (fragment : Fragment) : fragment.Encloses 0 fragment where
  fits := by rw [Nat.zero_add]
  placed place inside := by rw [Nat.zero_add]
  spared place instruction found outside := by
    obtain ⟨inside, -⟩ := List.getElem?_eq_some_iff.mp found
    omega

theorem Encloses.trans (outside : whole.Encloses outer middle) (inside : middle.Encloses inner part) :
    whole.Encloses (outer + inner) part where
  fits := by
    have ofWhole := outside.fits
    have ofMiddle := inside.fits
    omega
  placed place before := by
    have fits := inside.fits
    rw [Nat.add_assoc, outside.placed (inner + place) (by omega), inside.placed place before]
  spared place instruction found apart target member lower upper := by
    have fits := inside.fits
    by_cases away : place < outer ∨ outer + middle.length ≤ place
    · -- from there only the ends of the middle are seen, and the part lies between them
      have ends := outside.spared place instruction found away target member
      have atEnd := ends (by omega) (by omega)
      omega
    · have here := outside.placed (place - outer) (by omega)
      rw [Nat.add_sub_cancel' (by omega), found] at here
      have spares := inside.spared (place - outer) instruction here.symm (by omega) target member
      have atEnd := spares (by omega) (by omega)
      omega

/-- Code may stand around a part if it aims at its ends or past it. -/
theorem encloses_around
    (ofBefore : Aims (fun place => Spares part.length (place - before.length)) before)
    (ofAfter : Aims (fun place => Spares part.length (place + part.length)) after) :
    Encloses (before ++ (part ++ after)) before.length part where
  fits := by
    simp only [List.length_append]
    omega
  placed place inside := by
    rw [List.getElem?_append_right (Nat.le_add_right _ _), Nat.add_sub_cancel_left,
      List.getElem?_append_left inside]
  spared place instruction found apart target member := by
    rcases apart with ahead | behind
    · rw [List.getElem?_append_left ahead] at found
      exact ofBefore place instruction found target member
    · rw [List.getElem?_append_right (by omega), List.getElem?_append_right (by omega)] at found
      have spares : Spares part.length ((place - before.length - part.length : Nat) + target +
          part.length) := ofAfter _ instruction found target member
      have same : ((place - before.length - part.length : Nat) : Int) + target + part.length =
          place + target - before.length := by omega
      rwa [same] at spares

theorem encloses_first (ofSecond : second.Reaches 0 0) : Encloses (first ++ second) 0 first := by
  show Encloses ([] ++ (first ++ second)) ([] : Fragment).length first
  apply encloses_around aims_nil
  refine aims_of_reaches ofSecond ?_
  unfold Spares
  omega

theorem encloses_second (ofFirst : first.Reaches 0 0) :
    Encloses (first ++ second) first.length second := by
  have around : Encloses (first ++ (second ++ [])) first.length second := by
    refine encloses_around ?_ aims_nil
    refine aims_of_reaches ofFirst ?_
    unfold Spares
    omega
  rwa [List.append_nil] at around

/-! ## Nodes around their children -/

theorem encloses_group (body : Fragment) : body.group.Encloses 1 body := by
  have opens : Reaches 0 0 [.openGroup] := reaches_plain rfl
  have closes : Reaches 0 0 [.closeGroup] := reaches_plain rfl
  exact (encloses_second opens).trans (encloses_first closes)

theorem encloses_optional (body : Fragment) : body.optional.Encloses 1 body := by
  have around : Encloses ([.fork 1 (1 + body.length)] ++ (body ++ [])) 1 body := by
    refine encloses_around (aims_cons ?_ aims_nil) aims_nil
    simp [Instruction.targets, Spares]
  rwa [List.append_nil] at around

theorem encloses_star (body : Fragment) : body.star.Encloses 1 body := by
  show Encloses ([.fork 1 (2 + body.length)] ++ (body ++ [.jump (-(1 + body.length))])) 1 body
  refine encloses_around (aims_cons ?_ aims_nil) (aims_cons ?_ aims_nil)
  · simp [Instruction.targets, Spares]
    omega
  · simp [Instruction.targets, Spares]

theorem encloses_plus (body : Fragment) : body.plus.Encloses 0 body := by
  show Encloses ([] ++ (body ++ [.fork (-body.length) 1])) 0 body
  refine encloses_around aims_nil (aims_cons ?_ aims_nil)
  simp [Instruction.targets, Spares]

theorem encloses_earlier (ofSecond : second.Reaches 0 0) : (first.orElse second).Encloses 1 first := by
  show Encloses ([.fork 1 (2 + first.length)] ++ (first ++ .jump (1 + second.length) :: second)) 1 first
  refine encloses_around (aims_cons ?_ aims_nil) (aims_cons ?_ (aims_of_reaches ofSecond ?_))
  · simp [Instruction.targets, Spares]
    omega
  · simp [Instruction.targets, Spares]
    omega
  · unfold Spares
    omega

theorem encloses_last (ofFirst : first.Reaches 0 0) :
    (first.orElse second).Encloses (first.length + 2) second := by
  let before : Fragment := .fork 1 (2 + first.length) :: (first ++ [.jump (1 + second.length)])
  have size : before.length = first.length + 2 := by simp [before]
  have around : Encloses (before ++ (second ++ [])) before.length second := by
    refine encloses_around ?_ aims_nil
    rw [size]
    refine aims_cons ?_ (aims_append (aims_of_reaches ofFirst ?_) (aims_cons ?_ aims_nil))
    · simp [Instruction.targets, Spares]
      omega
    · unfold Spares
      omega
    · simp [Instruction.targets, Spares]
      omega
  have whole : before ++ (second ++ []) = first.orElse second := by simp [before, orElse]
  rwa [whole, size] at around

theorem reaches_anchor (given : Bool) (place : Anchor) :
    Reaches 0 0 (if given then [.anchor place] else []) := by
  cases given with
  | false => exact reaches_nil
  | true => exact reaches_plain rfl

theorem encloses_anchored (body : Fragment) (front back : Bool) :
    (anchored front body back).Encloses front.toNat body := by
  have inside : (anchored front body back).Encloses
      (0 + (if front then [.anchor .front] else [] : Fragment).length) body :=
    (encloses_first (reaches_anchor back .back)).trans (encloses_second (reaches_anchor front .front))
  cases front with
  | false => exact inside
  | true => exact inside

theorem encloses_copy (ofBody : body.Reaches 0 0) {copy count : Nat} (counted : copy < count) :
    Encloses (List.replicate count body).flatten (copy * body.length) body := by
  induction count generalizing copy with
  | zero => contradiction
  | succ count induction =>
      rw [List.replicate_succ, List.flatten_cons]
      cases copy with
      | zero =>
          rw [Nat.zero_mul]
          exact encloses_first (reaches_copies ofBody count)
      | succ copy =>
          rw [Nat.succ_mul, Nat.add_comm]
          exact (encloses_second ofBody).trans (induction (Nat.lt_of_succ_lt_succ counted))

theorem encloses_mandatory (ofBody : body.Reaches 0 0) {least most : Int} {copy : Nat}
    (counted : copy < least.toNat) : (body.range least most).Encloses (copy * body.length) body := by
  have among : (body.range least most).Encloses 0 (List.replicate least.toNat body).flatten :=
    encloses_first (reaches_copies (reaches_optional ofBody) _)
  have whole := among.trans (encloses_copy ofBody counted)
  rwa [Nat.zero_add] at whole

theorem encloses_further (ofBody : body.Reaches 0 0) {least most : Int} {copy : Nat}
    (counted : copy < (most - least).toNat) :
    (body.range least most).Encloses (least.toNat * body.length + (copy * (1 + body.length) + 1))
      body := by
  have copies := (encloses_copy (reaches_optional ofBody) counted).trans (encloses_optional body)
  have whole := (encloses_second (reaches_copies ofBody least.toNat)).trans copies
  rwa [length_copies, length_optional] at whole

end

end Fragment

/-! ## Subtrees -/

open RegexMachine.Tree

theorem encloses_factor {before after : List Tree} {factor : Tree} {fragment : Fragment}
    (assembled : Assembled (.sequence (before ++ factor :: after)) fragment) :
    ∃ own, Assembled factor own ∧ fragment.Encloses (codeSizeOfAll before) own := by
  induction before generalizing fragment with
  | nil =>
      rw [List.nil_append] at assembled
      cases assembled with
      | factor only => exact ⟨fragment, only, Fragment.encloses_self fragment⟩
      | sequence ofFactor ofOthers =>
          exact ⟨_, ofFactor, Fragment.encloses_first (assembled_reaches ofOthers)⟩
  | cons earlier before induction =>
      rw [List.cons_append] at assembled
      generalize same : before ++ factor :: after = others at assembled
      cases assembled with
      | factor only => simp at same
      | sequence ofEarlier ofOthers =>
          rw [← same] at ofOthers
          obtain ⟨own, ofFactor, inside⟩ := induction ofOthers
          have whole := (Fragment.encloses_second (assembled_reaches ofEarlier)).trans inside
          rw [length_assembled ofEarlier] at whole
          exact ⟨own, ofFactor, whole⟩

/-- Each alternative behind adds a fork in front of all, and each one before it adds a jump. -/
theorem encloses_alternative {before after : List Tree} {alternative : Tree} {fragment : Fragment}
    (assembled : Assembled (.choice (before ++ alternative :: after)) fragment) :
    ∃ own, Assembled alternative own ∧
      fragment.Encloses
        (before.length + after.length + (codeSizeOfAll before + before.length)) own := by
  generalize same : Tree.choice (before ++ alternative :: after) = tree at assembled
  induction assembled generalizing after with
  | @alternative tree fragment only =>
      obtain ⟨rfl, single⟩ | ⟨-, none⟩ := List.append_eq_singleton_iff.mp (Tree.choice.inj same)
      · obtain ⟨rfl, rfl⟩ := List.cons.inj single
        exact ⟨fragment, only, Fragment.encloses_self fragment⟩
      · contradiction
  | @choice earlier last first second ofEarlier ofLast ofFirst ofSecond =>
      have lists := Tree.choice.inj same
      rcases List.eq_nil_or_concat after with rfl | ⟨behind, final, rfl⟩
      · obtain ⟨rfl, single⟩ := List.append_inj' lists rfl
        obtain rfl := List.singleton_inj.mp single
        have several := assembled_choice_nonempty ofEarlier
        have size := length_assembled ofEarlier
        rw [codeSize] at size
        have place : before.length + 0 + (codeSizeOfAll before + before.length) = first.length + 2 := by
          omega
        rw [List.length_nil, place]
        exact ⟨second, ofLast, Fragment.encloses_last (assembled_reaches ofEarlier)⟩
      · rw [List.concat_eq_append, ← List.cons_append, ← List.append_assoc] at lists
        obtain ⟨rfl, -⟩ := List.append_inj' lists rfl
        obtain ⟨own, ofOwn, inside⟩ := ofFirst rfl
        have whole := (Fragment.encloses_earlier (assembled_reaches ofLast)).trans inside
        have place : 1 + (before.length + behind.length + (codeSizeOfAll before + before.length)) =
            before.length + (behind.concat final).length + (codeSizeOfAll before + before.length) := by
          rw [List.length_concat]
          omega
        rw [place] at whole
        exact ⟨own, ofOwn, whole⟩
  | _ => contradiction

/-- What lies in the code of a child lies in the code of the node. -/
theorem encloses_below {part : Tree} {whole middle : Fragment} {outer inner : Nat}
    (outside : whole.Encloses outer middle)
    (below : ∃ own, Assembled part own ∧ middle.Encloses inner own) :
    ∃ own, Assembled part own ∧ whole.Encloses (outer + inner) own := by
  obtain ⟨own, ofOwn, inside⟩ := below
  exact ⟨own, ofOwn, outside.trans inside⟩

theorem encloses_of_begins_at {part tree : Tree} {offset : Nat} (begins : part.BeginsAt tree offset)
    {fragment : Fragment} (assembled : Assembled tree fragment) :
    ∃ own, Assembled part own ∧ fragment.Encloses offset own := by
  induction begins generalizing fragment with
  | itself => exact ⟨fragment, assembled, Fragment.encloses_self fragment⟩
  | anchored front back inner induction =>
      cases assembled with
      | anchored _ _ ofBody =>
          exact encloses_below (Fragment.encloses_anchored _ front back) (induction ofBody)
  | choice before after inner induction =>
      obtain ⟨code, ofAlternative, outside⟩ := encloses_alternative assembled
      exact encloses_below outside (induction ofAlternative)
  | sequence before after inner induction =>
      obtain ⟨code, ofFactor, outside⟩ := encloses_factor assembled
      exact encloses_below outside (induction ofFactor)
  | group inner induction =>
      cases assembled with
      | group ofBody => exact encloses_below (Fragment.encloses_group _) (induction ofBody)
  | star inner induction =>
      cases assembled with
      | star ofBody => exact encloses_below (Fragment.encloses_star _) (induction ofBody)
  | plus inner induction =>
      cases assembled with
      | plus ofBody => exact encloses_below (Fragment.encloses_plus _) (induction ofBody)
  | optional inner induction =>
      cases assembled with
      | optional ofBody => exact encloses_below (Fragment.encloses_optional _) (induction ofBody)
  | mandatory counted inner induction =>
      cases assembled with
      | range ordered ofBody =>
          rw [← length_assembled ofBody]
          apply encloses_below _ (induction ofBody)
          exact Fragment.encloses_mandatory (assembled_reaches ofBody) counted
      | noCopies none same => omega
  | further counted inner induction =>
      cases assembled with
      | range ordered ofBody =>
          rw [← length_assembled ofBody]
          apply encloses_below _ (induction ofBody)
          exact Fragment.encloses_further (assembled_reaches ofBody) counted
      | noCopies none same => omega

/-! ## Programs -/

/-- The block stands in the program from `offset` on, moved there from place zero. Control leaves it only
for its end, and comes from elsewhere only to its beginning, or to its end. -/
structure Program.HasBlock (program : Program) (offset : Nat) (block : Array Instruction) : Prop where
  inside : offset + block.size < program.size
  same : program.instructions.extract offset (offset + block.size) =
    block.map (Instruction.relocate offset)
  exits : ∀ (place : Nat) (instruction : Instruction),
    program.instructions[place]? = some instruction →
      offset ≤ place → place < offset + block.size → ∀ target ∈ instruction.targets,
        (offset : Int) ≤ target ∧ target ≤ (offset + block.size : Nat)
  entries : ∀ (place : Nat) (instruction : Instruction),
    program.instructions[place]? = some instruction →
      place < offset ∨ offset + block.size ≤ place → ∀ target ∈ instruction.targets,
        (offset : Int) ≤ target → target ≤ (offset + block.size : Nat) →
          target = offset ∨ target = (offset + block.size : Nat)

theorem lookup_resolve (fragment : Fragment) (place : Nat) :
    fragment.resolve.toArray[place]? =
      fragment[place]?.map fun instruction => instruction.relocate place := by
  rw [List.getElem?_toArray, Fragment.resolve, List.getElem?_mapIdx]

theorem mem_targets_relocate {instruction : Instruction} {distance target : Int}
    (member : target ∈ (instruction.relocate distance).targets) :
    target - distance ∈ instruction.targets := by
  rw [Instruction.targets_relocate] at member
  obtain ⟨own, among, rfl⟩ := List.mem_map.mp member
  rwa [Int.add_sub_cancel]

section

variable {program : Program} {whole own : Fragment} {offset : Nat}

theorem unresolved {place : Nat} {instruction : Instruction}
    (resolved : program.instructions = whole.resolve.toArray)
    (found : program.instructions[place]? = some instruction) :
    ∃ code, whole[place]? = some code ∧ code.relocate place = instruction := by
  rw [resolved, lookup_resolve] at found
  exact Option.map_eq_some_iff.mp found

theorem extract_of_encloses (resolved : program.instructions = whole.resolve.toArray)
    (encloses : whole.Encloses offset own) :
    program.instructions.extract offset (offset + own.length) =
      own.resolve.toArray.map (Instruction.relocate offset) := by
  have fits := encloses.fits
  have size : whole.resolve.toArray.size = whole.length := Fragment.length_resolve whole
  apply Array.ext_getElem?
  intro place
  rw [resolved, Array.getElem?_extract, Array.getElem?_map, lookup_resolve, lookup_resolve, size,
    Nat.min_eq_left fits, Nat.add_sub_cancel_left]
  split
  · next inside =>
      rw [encloses.placed place inside, Option.map_map]
      congr 1
      funext instruction
      rw [Function.comp_apply, Instruction.relocate_relocate, Int.natCast_add, Int.add_comm]
  · next outside => rw [List.getElem?_eq_none (Nat.le_of_not_lt outside), Option.map_none, Option.map_none]

/-- What holds of distances in a fragment holds of places in its program. -/
theorem has_block_of_encloses (resolved : program.instructions = whole.resolve.toArray)
    (encloses : whole.Encloses offset own) (reaches : own.Reaches 0 0)
    (inside : offset + own.length < whole.length) :
    program.HasBlock offset own.resolve.toArray := by
  have size : own.resolve.toArray.size = own.length := Fragment.length_resolve own
  constructor
  · rw [size, Program.size, resolved]
    exact Nat.lt_of_lt_of_eq inside (Fragment.length_resolve whole).symm
  · rw [size]
    exact extract_of_encloses resolved encloses
  · intro place instruction found after before target member
    rw [size] at before ⊢
    obtain ⟨code, known, rfl⟩ := unresolved resolved found
    have here := encloses.placed (place - offset) (by omega)
    rw [Nat.add_sub_cancel' after, known] at here
    have bounds := reaches _ code here.symm _ (mem_targets_relocate member)
    omega
  · intro place instruction found apart target member lower upper
    rw [size] at apart upper ⊢
    obtain ⟨code, known, rfl⟩ := unresolved resolved found
    have spared := encloses.spared place code known apart _ (mem_targets_relocate member)
    have ends := spared (by omega) (by omega)
    omega

end

/-- Wherever a subtree stands in a tree, and however often its code is repeated there, the code is a block
that has one entry and one exit: the program of the subtree alone, without its last instruction, and with
the place of the block added to all targets. -/
theorem subtree_block {tree part : Tree} {source : List Char} {program : Program}
    (compiled : tree.compile source = .ok program) {offset : Nat} (begins : part.BeginsAt tree offset) :
    ∃ own block, part.compile = .ok own ∧ own.instructions = block.push .finish ∧
      block.size = part.codeSize ∧ program.HasBlock offset block := by
  obtain ⟨fragment, assembled, resolved⟩ := instructions_of_compile compiled
  obtain ⟨code, ofPart, inFragment⟩ := encloses_of_begins_at begins (assembled_of_assemble tree assembled)
  obtain ⟨own, compiledOwn⟩ := compile_of_assemble (assemble_of_assembled ofPart) []
  obtain ⟨again, assembledOwn, resolvedOwn⟩ := instructions_of_compile compiledOwn
  obtain rfl := Except.ok.inj ((assemble_of_assembled ofPart).symm.trans assembledOwn)
  refine ⟨own, code.resolve.toArray, compiledOwn, ?_, ?_, ?_⟩
  · rw [resolvedOwn, resolve_finish, List.push_toArray]
  · rw [List.size_toArray, Fragment.length_resolve, length_assembled ofPart]
  · have finishes : Fragment.Reaches 0 0 [.finish] := reaches_plain rfl
    have whole := (Fragment.encloses_first finishes).trans inFragment
    rw [Nat.zero_add] at whole
    have fits := inFragment.fits
    apply has_block_of_encloses resolved whole (assembled_reaches ofPart)
    rw [List.length_append, List.length_singleton]
    omega

/-- The body of a range in a loop has its second copy behind a fork, and in this copy the alternatives
stand in the group. -/
theorem subtree_block_second_copy :
    let part : Tree := .choice [.char 'b', .char 'c']
    let tree : Tree :=
      .sequence [.char 'x', .star (.choice [.char 'a', .range (.group part) 1 2])]
    ∃ program own block, tree.compile = .ok program ∧ part.BeginsAt tree 13 ∧
      part.compile = .ok own ∧ own.instructions = block.push .finish ∧ block.size = 4 ∧
      program.HasBlock 13 block := by
  intro part tree
  obtain ⟨program, compiled⟩ : ∃ program, tree.compile = .ok program := ⟨_, rfl⟩
  have counted : 0 < ((2 : Int) - 1).toNat := by decide
  have inCopy : part.BeginsAt (.range (.group part) 1 2) 8 := .further counted (.group .itself)
  have inChoice : part.BeginsAt (.choice [.char 'a', .range (.group part) 1 2]) 11 :=
    .choice [.char 'a'] [] inCopy
  have begins : part.BeginsAt tree 13 := .sequence [.char 'x'] [] (.star inChoice)
  obtain ⟨own, block, compiledPart, finished, size, hasBlock⟩ := subtree_block compiled begins
  exact ⟨program, own, block, compiled, begins, compiledPart, finished, size, hasBlock⟩

end RegexMachine
