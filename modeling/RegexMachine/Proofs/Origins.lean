import RegexMachine.Proofs.Assembly

/-!
# The nodes that instructions come from

A node puts a few instructions around the fragments of its children. Each instruction in the fragment
of a tree was put there by some node of the tree, so that a kind of instruction that no node of the
tree puts anywhere does not occur: without loops no target lies in front of the instruction that names
it, without anything to choose from there is no target at all, and without groups there is no bracket.
-/

namespace RegexMachine

namespace Tree

/-- What a node adds to the fragments of its children. Only loops go back. -/
inductive Emits : Tree → Instruction → Prop
  | anchored (front : Bool) (body : Tree) (back : Bool) (place : Anchor) :
      Emits (.anchored front body back) (.anchor place)
  | choose {alternatives} (several : 1 < alternatives.length) {distance : Int}
      (forward : 0 < distance) : Emits (.choice alternatives) (.fork 1 distance)
  | join {alternatives} (several : 1 < alternatives.length) {distance : Int}
      (forward : 0 < distance) : Emits (.choice alternatives) (.jump distance)
  | opens (body : Tree) : Emits (.group body) .openGroup
  | closes (body : Tree) : Emits (.group body) .closeGroup
  | enter (body : Tree) (distance : Int) : Emits (.star body) (.fork 1 distance)
  | again (body : Tree) (distance : Int) : Emits (.star body) (.jump distance)
  | plus (body : Tree) (distance : Int) : Emits (.plus body) (.fork distance 1)
  | optional (body : Tree) {distance : Int} (forward : 0 < distance) :
      Emits (.optional body) (.fork 1 distance)
  | range (body : Tree) (least most : Int) {distance : Int} (forward : 0 < distance) :
      Emits (.range body least most) (.fork 1 distance)
  | any : Emits .any (.char .any)
  | oneOf (negated : Bool) (members : List Char) :
      Emits (.oneOf negated members) (.char (.oneOf negated (.ofList members)))
  | char (c : Char) : Emits (.char c) (.char (.exactly c))

def Emitted (tree : Tree) (instruction : Instruction) : Prop :=
  ∃ node ∈ tree.walk, node.Emits instruction

section

variable {tree child : Tree} {instruction : Instruction}

theorem emitted_iff :
    tree.Emitted instruction ↔
      tree.Emits instruction ∨ ∃ child ∈ tree.children, child.Emitted instruction := by
  unfold Emitted
  rw [walk_eq_cons_children]
  simp only [List.mem_cons, List.mem_flatMap, exists_eq_or_imp]
  constructor
  · intro emitted
    rcases emitted with own | ⟨node, ⟨child, below, member⟩, emits⟩
    · exact .inl own
    · exact .inr ⟨child, below, node, member, emits⟩
  · intro emitted
    rcases emitted with own | ⟨child, below, node, member, emits⟩
    · exact .inl own
    · exact .inr ⟨node, ⟨child, below, member⟩, emits⟩

theorem emitted_self (emits : tree.Emits instruction) : tree.Emitted instruction :=
  emitted_iff.mpr (.inl emits)

theorem emitted_below (below : child ∈ tree.children) (emitted : child.Emitted instruction) :
    tree.Emitted instruction :=
  emitted_iff.mpr (.inr ⟨child, below, emitted⟩)

/-- A choice of fewer alternatives adds nothing else than one of more. -/
theorem emitted_choice {earlier later : List Tree}
    (emitted : (Tree.choice earlier).Emitted instruction) :
    (Tree.choice (earlier ++ later)).Emitted instruction := by
  rcases emitted_iff.mp emitted with own | ⟨alternative, among, further⟩
  · apply emitted_self
    cases own with
    | choose several forward => exact .choose (by rw [List.length_append]; omega) forward
    | join several forward => exact .join (by rw [List.length_append]; omega) forward
  · exact emitted_below (List.mem_append_left later among) further

theorem emitted_sequence {factor : Tree} {others : List Tree}
    (emitted : (Tree.sequence others).Emitted instruction) :
    (Tree.sequence (factor :: others)).Emitted instruction := by
  rcases emitted_iff.mp emitted with own | ⟨other, among, further⟩
  · nomatch own
  · exact emitted_below (List.mem_cons_of_mem factor among) further

end

end Tree

/-! ## Fragments -/

theorem assembled_choice_nonempty {alternatives : List Tree} {fragment : Fragment}
    (assembled : Assembled (.choice alternatives) fragment) : 0 < alternatives.length := by
  have assembles := (assembles_choice_iff alternatives).mp ⟨fragment, assemble_of_assembled assembled⟩
  exact List.length_pos_iff.mpr assembles.1

section

variable {tree body : Tree} {fragment : Fragment}

theorem emitted_body (below : body ∈ tree.children)
    (ofBody : ∀ instruction ∈ fragment, body.Emitted instruction) :
    ∀ instruction ∈ fragment, tree.Emitted instruction :=
  fun instruction member => Tree.emitted_below below (ofBody instruction member)

theorem emitted_copies (ofFragment : ∀ instruction ∈ fragment, tree.Emitted instruction)
    (count : Nat) : ∀ instruction ∈ (List.replicate count fragment).flatten,
      tree.Emitted instruction := by
  intro instruction member
  obtain ⟨copy, among, inCopy⟩ := List.mem_flatten.mp member
  rw [List.eq_of_mem_replicate among] at inCopy
  exact ofFragment instruction inCopy

end

/-- Every instruction in the fragment of a tree comes from a node of the tree. -/
theorem emitted_of_assembled {tree : Tree} {fragment : Fragment}
    (assembled : Assembled tree fragment) : ∀ instruction ∈ fragment, tree.Emitted instruction := by
  induction assembled with
  | @anchored body fragment front back ofBody induction =>
      have anchor : ∀ place, (Tree.anchored front body back).Emitted (.anchor place) :=
        fun place => Tree.emitted_self (.anchored front body back place)
      simp only [Fragment.anchored, List.forall_mem_append]
      refine ⟨⟨?_, emitted_body List.mem_cons_self induction⟩, ?_⟩
      · cases front with
        | false => exact List.forall_mem_nil _
        | true => exact List.forall_mem_singleton.mpr (anchor .front)
      · cases back with
        | false => exact List.forall_mem_nil _
        | true => exact List.forall_mem_singleton.mpr (anchor .back)
  | alternative only induction => exact emitted_body List.mem_cons_self induction
  | @choice earlier last first second ofEarlier ofLast inEarlier inLast =>
      have several : 1 < (earlier ++ [last]).length := by
        have some := assembled_choice_nonempty ofEarlier
        rw [List.length_append, List.length_singleton]
        omega
      simp only [Fragment.orElse, List.forall_mem_cons, List.forall_mem_append]
      refine ⟨?_, ?_, ?_, ?_⟩
      · exact Tree.emitted_self (.choose several (by omega))
      · exact fun instruction member => Tree.emitted_choice (inEarlier instruction member)
      · exact Tree.emitted_self (.join several (by omega))
      · exact emitted_body (List.mem_append_right earlier List.mem_cons_self) inLast
  | factor only induction => exact emitted_body List.mem_cons_self induction
  | sequence ofFactor ofOthers inFactor inOthers =>
      rw [List.forall_mem_append]
      constructor
      · exact emitted_body List.mem_cons_self inFactor
      · exact fun instruction member => Tree.emitted_sequence (inOthers instruction member)
  | @group body fragment ofBody induction =>
      simp only [Fragment.group, List.forall_mem_cons, List.forall_mem_append]
      refine ⟨Tree.emitted_self (.opens body), emitted_body List.mem_cons_self induction, ?_,
        List.forall_mem_nil _⟩
      exact Tree.emitted_self (.closes body)
  | @star body fragment ofBody induction =>
      simp only [Fragment.star, List.forall_mem_cons, List.forall_mem_append]
      refine ⟨Tree.emitted_self (.enter body _), emitted_body List.mem_cons_self induction, ?_,
        List.forall_mem_nil _⟩
      exact Tree.emitted_self (.again body _)
  | @plus body fragment ofBody induction =>
      simp only [Fragment.plus, List.forall_mem_append, List.forall_mem_singleton]
      exact ⟨emitted_body List.mem_cons_self induction, Tree.emitted_self (.plus body _)⟩
  | @optional body fragment ofBody induction =>
      simp only [Fragment.optional, List.forall_mem_cons]
      refine ⟨?_, emitted_body List.mem_cons_self induction⟩
      exact Tree.emitted_self (.optional body (by omega))
  | @range body fragment least most ordered ofBody induction =>
      have inCopy : ∀ instruction ∈ fragment, (Tree.range body least most).Emitted instruction :=
        emitted_body List.mem_cons_self induction
      simp only [Fragment.range, List.forall_mem_append]
      refine ⟨emitted_copies inCopy _, emitted_copies ?_ _⟩
      simp only [Fragment.optional, List.forall_mem_cons]
      exact ⟨Tree.emitted_self (.range body least most (by omega)), inCopy⟩
  | noCopies none same => exact List.forall_mem_nil _
  | any => exact List.forall_mem_singleton.mpr (Tree.emitted_self .any)
  | oneOf negated members =>
      exact List.forall_mem_singleton.mpr (Tree.emitted_self (.oneOf negated members))
  | char c => exact List.forall_mem_singleton.mpr (Tree.emitted_self (.char c))

/-! ## What does not occur -/

namespace Tree

def LoopFree (tree : Tree) : Prop := ∀ body, star body ∉ tree.walk ∧ plus body ∉ tree.walk

def RangeFree (tree : Tree) : Prop := ∀ body least most, range body least most ∉ tree.walk

/-- Without optional parts, and with one alternative where there could be several. -/
def Undivided (tree : Tree) : Prop :=
  (∀ body, optional body ∉ tree.walk) ∧
    ∀ alternatives, choice alternatives ∈ tree.walk → alternatives.length = 1

def Groupless (tree : Tree) : Prop := ∀ body, group body ∉ tree.walk

section

variable {tree : Tree} {instruction : Instruction}

/-- Without loops no target lies in front of the instruction that names it. -/
theorem forward_of_emitted (loopFree : tree.LoopFree) (emitted : tree.Emitted instruction) :
    ∀ target ∈ instruction.targets, 0 < target := by
  obtain ⟨node, member, emits⟩ := emitted
  cases emits with
  | enter body distance => exact absurd member (loopFree body).1
  | again body distance => exact absurd member (loopFree body).1
  | plus body distance => exact absurd member (loopFree body).2
  | join several forward => exact List.forall_mem_singleton.mpr forward
  | choose several forward =>
      exact List.forall_mem_cons.mpr ⟨Int.one_pos, List.forall_mem_singleton.mpr forward⟩
  | optional body forward =>
      exact List.forall_mem_cons.mpr ⟨Int.one_pos, List.forall_mem_singleton.mpr forward⟩
  | range body least most forward =>
      exact List.forall_mem_cons.mpr ⟨Int.one_pos, List.forall_mem_singleton.mpr forward⟩
  | anchored | opens | closes | any | oneOf | char => nofun

/-- Where there is nothing to choose from, no instruction names a target. -/
theorem straight_of_emitted (loopFree : tree.LoopFree) (rangeFree : tree.RangeFree)
    (undivided : tree.Undivided) (emitted : tree.Emitted instruction) : instruction.targets = [] := by
  obtain ⟨node, member, emits⟩ := emitted
  cases emits with
  | enter body distance => exact absurd member (loopFree body).1
  | again body distance => exact absurd member (loopFree body).1
  | plus body distance => exact absurd member (loopFree body).2
  | join several forward =>
      rw [undivided.2 _ member] at several
      contradiction
  | choose several forward =>
      rw [undivided.2 _ member] at several
      contradiction
  | optional body forward => exact absurd member (undivided.1 body)
  | range body least most forward => exact absurd member (rangeFree body least most)
  | anchored | opens | closes | any | oneOf | char => rfl

theorem plain_of_emitted (groupless : tree.Groupless) (emitted : tree.Emitted instruction) :
    instruction ≠ .openGroup ∧ instruction ≠ .closeGroup := by
  obtain ⟨node, member, emits⟩ := emitted
  cases emits with
  | opens body => exact absurd member (groupless body)
  | closes body => exact absurd member (groupless body)
  | _ => exact ⟨Instruction.noConfusion, Instruction.noConfusion⟩

end

end Tree

end RegexMachine
