import Mathlib.Data.List.TakeWhile
import RegexMachine.Pattern.Printer
import RegexMachine.Proofs.Delimited

/-!
# Printed trees are told apart

The name in front of the first bracket says which node was printed, and with it how the rest is to be
read: characters and members are quoted texts, truth values and numbers end in front of what follows
them, and of the children each ends by itself. So a printed tree can be told from what stands behind
it, whatever characters it holds, and no two trees are printed alike.

A foreign node is printed in words of its own. Nothing is told from them unless they are a name that
no other kind of node has, with an empty pair of brackets behind it.
-/

namespace RegexMachine

open RegexMachine.Text

namespace Tree

def isNameChar (c : Char) : Bool := c.isAlphanum || c == '_'

def label : Tree → String
  | anchored _ _ _ => "PrefixSuffix"
  | choice _ => "Branch"
  | sequence _ => "Connect"
  | group _ => "Group"
  | star _ => "RepeatStar"
  | plus _ => "RepeatPlus"
  | optional _ => "Maybe"
  | range _ _ _ => "RepeatRange"
  | any => "AnyChar"
  | oneOf _ _ => "CharClass"
  | char _ => "Literal"
  | foreign written _ => String.ofList (written.takeWhile isNameChar)

/-- The names that foreign nodes cannot have for their own. -/
def reserved : List String :=
  ["PrefixSuffix", "Branch", "Connect", "Group", "RepeatStar", "RepeatPlus", "Maybe", "RepeatRange",
    "AnyChar", "CharClass", "Literal"]

/-- A foreign node can be told from the others if it is written as a leaf that has its own name. -/
def isLegible : Tree → Bool
  | tree@(foreign written below) =>
      written == tree.label.toList ++ ['(', ')'] && tree.label != "" &&
        !reserved.contains tree.label && below.isEmpty
  | _ => true

def Legible (tree : Tree) : Prop := ∀ node ∈ tree.walk, node.isLegible = true

instance (tree : Tree) : Decidable tree.Legible :=
  inferInstanceAs (Decidable (∀ node ∈ tree.walk, node.isLegible = true))

def negation (negated : Bool) : List Char := if negated then "^".toList else []

/-- What stands in the outermost brackets of the written form. -/
def inner : Tree → List Char
  | anchored front body back =>
      flag front ++ ", ".toList ++ body.render ++ ", ".toList ++ flag back
  | choice alternatives => "[".toList ++ renderAll alternatives ++ "]".toList
  | sequence factors => "[".toList ++ renderAll factors ++ "]".toList
  | group body | star body | plus body | optional body => body.render
  | range body least most =>
      body.render ++ ", \x7b".toList ++ decimal least ++ ",".toList ++ decimal most ++ "\x7d".toList
  | oneOf negated members => "[".toList ++ negation negated ++ quoted members ++ "]".toList
  | char c => quoted [c]
  | any | foreign _ _ => []

theorem Legible.child {child tree : Tree} (legible : tree.Legible) (below : child ∈ tree.children) :
    child.Legible :=
  fun node member => legible node (walk_subset below member)

theorem Legible.root {tree : Tree} (legible : tree.Legible) : tree.isLegible = true := by
  apply legible
  rw [walk_eq_cons_children]
  exact List.mem_cons_self

theorem legible_of_known {tree : Tree} (known : ∀ written below, foreign written below ∉ tree.walk) :
    tree.Legible := by
  intro node member
  cases node with
  | foreign written below => exact absurd member (known written below)
  | _ => rfl

theorem foreign_legible {written : List Char} {below : List Tree}
    (legible : (foreign written below).isLegible = true) :
    written = (foreign written below).label.toList ++ ['(', ')'] ∧ (foreign written below).label ≠ "" ∧
      (foreign written below).label ∉ reserved ∧ below = [] := by
  simpa [isLegible, and_assoc] using legible

theorem render_eq {tree : Tree} (legible : tree.isLegible = true) :
    tree.render = tree.label.toList ++ '(' :: (tree.inner ++ [')']) := by
  rw [render.eq_def]
  cases tree with
  | foreign written below => exact (foreign_legible legible).1
  | _ => simp [label, inner, negation]

theorem label_reserved {tree : Tree} (known : ∀ written below, tree ≠ foreign written below) :
    tree.label ∈ reserved := by
  cases tree with
  | foreign written below => exact absurd rfl (known written below)
  | _ => simp [label, reserved]

theorem label_ne_empty {tree : Tree} (legible : tree.isLegible = true) : tree.label ≠ "" := by
  cases tree with
  | foreign written below => exact (foreign_legible legible).2.1
  | _ => simp [label]

theorem reserved_named : ∀ name ∈ reserved, name.toList.all isNameChar = true := by
  decide

theorem label_named (tree : Tree) : ∀ c ∈ tree.label.toList, isNameChar c = true := by
  cases tree with
  | foreign written below =>
      rw [label, String.toList_ofList]
      exact fun c member => List.mem_takeWhile_imp member
  | _ => exact List.all_eq_true.mp (reserved_named _ (label_reserved nofun))

/-! ## Nodes of one kind -/

/-- Two nodes of one kind. A foreign kind has only one legible node. -/
inductive Alike : Tree → Tree → Prop
  | anchored {front front' back back' : Bool} {body body' : Tree} :
      Alike (anchored front body back) (anchored front' body' back')
  | choice {trees trees' : List Tree} : Alike (choice trees) (choice trees')
  | sequence {trees trees' : List Tree} : Alike (sequence trees) (sequence trees')
  | group {body body' : Tree} : Alike (group body) (group body')
  | star {body body' : Tree} : Alike (star body) (star body')
  | plus {body body' : Tree} : Alike (plus body) (plus body')
  | optional {body body' : Tree} : Alike (optional body) (optional body')
  | range {body body' : Tree} {least least' most most' : Int} :
      Alike (range body least most) (range body' least' most')
  | any : Alike any any
  | oneOf {negated negated' : Bool} {members members' : List Char} :
      Alike (oneOf negated members) (oneOf negated' members')
  | char {c c' : Char} : Alike (char c) (char c')
  | foreign {written : List Char} : Alike (foreign written []) (foreign written [])

theorem alike_of_label {left right : Tree} (legible : left.isLegible = true)
    (legible' : right.isLegible = true) (labels : left.label = right.label) : Alike left right := by
  cases left with
  | foreign written below =>
      obtain ⟨named, -, apart, rfl⟩ := foreign_legible legible
      cases right with
      | foreign written' below' =>
          obtain ⟨named', -, -, rfl⟩ := foreign_legible legible'
          obtain rfl : written = written' := by rw [named, named', labels]
          exact .foreign
      | _ => exact absurd (labels ▸ label_reserved nofun) apart
  | _ =>
      cases right with
      | foreign written' below' =>
          obtain ⟨-, -, apart, -⟩ := foreign_legible legible'
          exact absurd (labels ▸ label_reserved nofun) apart
      | _ => first | constructor | simp [label] at labels

/-- Nodes that are printed alike are of one kind, and hold the same in their brackets. -/
theorem inner_of_render {left right : Tree} {rest other : List Char} (legible : left.isLegible = true)
    (legible' : right.isLegible = true) (same : left.render ++ rest = right.render ++ other) :
    Alike left right ∧ left.inner ++ ')' :: rest = right.inner ++ ')' :: other := by
  simp only [render_eq legible, render_eq legible', List.append_assoc, List.cons_append] at same
  obtain ⟨labels, behind⟩ := eq_of_stopped (label_named left) (label_named right) rfl same
  exact ⟨alike_of_label legible legible' (String.toList_inj.mp labels), behind⟩

def Apart (tree : Tree) : Prop :=
  tree.Legible → ∀ ⦃next : Tree⦄ ⦃rest other : List Char⦄, next.Legible →
    tree.render ++ rest = next.render ++ other → tree = next ∧ rest = other

/-! ## Lists of trees -/

/-- What is written behind a tree for those that come after it. -/
def separated : List Tree → List Char
  | [] => []
  | tree :: trees => ", ".toList ++ renderAll (tree :: trees)

theorem render_all_cons (tree : Tree) (trees : List Tree) :
    renderAll (tree :: trees) = tree.render ++ separated trees := by
  cases trees with
  | nil => exact (List.append_nil _).symm
  | cons next trees => exact List.append_assoc _ _ _

theorem render_ne_bracket {tree : Tree} (legible : tree.isLegible = true) (rest other : List Char) :
    tree.render ++ rest ≠ ']' :: other := by
  rw [render_eq legible]
  cases named : tree.label.toList with
  | nil => exact absurd (String.toList_eq_nil_iff.mp named) (label_ne_empty legible)
  | cons first name =>
      intro same
      have char := label_named tree first (named ▸ List.mem_cons_self)
      rw [(List.cons.inj same).1] at char
      contradiction

theorem eq_of_render_all {left right : List Tree} {rest other : List Char}
    (apart : ∀ tree ∈ left, tree.Apart) (legible : ∀ tree ∈ left, tree.Legible)
    (legible' : ∀ tree ∈ right, tree.Legible)
    (same : renderAll left ++ ']' :: rest = renderAll right ++ ']' :: other) :
    left = right ∧ rest = other := by
  induction left generalizing right with
  | nil =>
      cases right with
      | nil => exact ⟨rfl, (List.cons.inj same).2⟩
      | cons tree right =>
          rw [List.forall_mem_cons] at legible'
          rw [render_all_cons, List.append_assoc] at same
          exact absurd same.symm (render_ne_bracket legible'.1.root _ _)
  | cons tree left induction =>
      rw [List.forall_mem_cons] at apart legible
      rw [render_all_cons, List.append_assoc] at same
      cases right with
      | nil => exact absurd same (render_ne_bracket legible.1.root _ _)
      | cons next right =>
          rw [List.forall_mem_cons] at legible'
          rw [render_all_cons, List.append_assoc] at same
          obtain ⟨rfl, behind⟩ := apart.1 legible.1 legible'.1 same
          cases left with
          | nil =>
              cases right with
              | nil => exact ⟨rfl, (List.cons.inj behind).2⟩
              | cons => simp [separated] at behind
          | cons =>
              cases right with
              | nil => simp [separated] at behind
              | cons =>
                  simp only [separated, List.append_assoc, List.append_cancel_left_eq] at behind
                  obtain ⟨rest, ends⟩ := induction apart.2 legible.2 legible'.2 behind
                  exact ⟨congrArg (tree :: ·) rest, ends⟩

/-! ## Trees -/

theorem quoted_ne_sign (text rest other : List Char) : quoted text ++ rest ≠ '^' :: other := by
  intro same
  have mark : enclosingMark text = '^' := (List.cons.inj same).1
  have isMark := is_mark_enclosing_mark text
  rw [mark] at isMark
  exact absurd isMark (by unfold IsMark; decide)

/-- The mark in front of the members is not taken for the sign of a negated class. -/
theorem eq_of_members {left right : Bool} {members others rest other : List Char}
    (same : negation left ++ (quoted members ++ rest) = negation right ++ (quoted others ++ other)) :
    left = right ∧ members = others ∧ rest = other := by
  cases left with
  | false =>
      cases right with
      | false => exact ⟨rfl, delimited_quoted same⟩
      | true => exact absurd same (quoted_ne_sign members rest _)
  | true =>
      cases right with
      | false => exact absurd same.symm (quoted_ne_sign others other _)
      | true => exact ⟨rfl, delimited_quoted (List.cons.inj same).2⟩

/-- It is enough to look into the brackets of nodes of the same kind. -/
theorem apart_of_inner {tree : Tree}
    (told : tree.Legible → ∀ (next : Tree) (rest other : List Char), next.Legible → Alike tree next →
      tree.inner ++ ')' :: rest = next.inner ++ ')' :: other →
        tree = next ∧ ')' :: rest = ')' :: other) : tree.Apart := by
  intro legible next rest other legible' same
  obtain ⟨alike, inside⟩ := inner_of_render legible.root legible'.root same
  obtain ⟨rfl, behind⟩ := told legible next rest other legible' alike inside
  exact ⟨rfl, (List.cons.inj behind).2⟩

/-- What nodes hold is told apart piece by piece, in the order of writing. -/
theorem apart_render (tree : Tree) : tree.Apart := by
  induction tree with
  | anchored front body back induction =>
      apply apart_of_inner
      intro legible next rest other legible' alike same
      cases alike with
      | anchored =>
          simp only [inner, List.append_assoc] at same
          obtain ⟨rfl, behindFront⟩ := delimited_flag same
          obtain ⟨rfl, behindBody⟩ := induction (legible.child List.mem_cons_self)
            (legible'.child List.mem_cons_self) (List.append_cancel_left behindFront)
          obtain ⟨rfl, behindBack⟩ := delimited_flag (List.append_cancel_left behindBody)
          exact ⟨rfl, behindBack⟩
  | choice trees induction | sequence trees induction =>
      apply apart_of_inner
      intro legible next rest other legible' alike same
      cases alike
      simp only [inner, List.append_assoc] at same
      obtain ⟨rfl, behind⟩ := eq_of_render_all induction (fun _ => legible.child)
        (fun _ => legible'.child) (List.append_cancel_left same)
      exact ⟨rfl, behind⟩
  | group body induction | star body induction | plus body induction | optional body induction =>
      apply apart_of_inner
      intro legible next rest other legible' alike same
      cases alike
      obtain ⟨rfl, behind⟩ := induction (legible.child List.mem_cons_self)
        (legible'.child List.mem_cons_self) same
      exact ⟨rfl, behind⟩
  | range body least most induction =>
      apply apart_of_inner
      intro legible next rest other legible' alike same
      cases alike with
      | range =>
          simp only [inner, List.append_assoc] at same
          obtain ⟨rfl, behindBody⟩ := induction (legible.child List.mem_cons_self)
            (legible'.child List.mem_cons_self) same
          have numbers := List.append_cancel_left behindBody
          obtain ⟨rfl, behindLeast⟩ := eq_of_decimal ',' rfl numbers
          obtain ⟨rfl, behindMost⟩ := eq_of_decimal '\x7d' rfl behindLeast
          exact ⟨rfl, behindMost⟩
  | oneOf negated members =>
      apply apart_of_inner
      intro legible next rest other legible' alike same
      cases alike with
      | oneOf =>
          simp only [inner, List.append_assoc] at same
          obtain ⟨rfl, rfl, behind⟩ := eq_of_members (List.append_cancel_left same)
          exact ⟨rfl, List.append_cancel_left behind⟩
  | char c =>
      apply apart_of_inner
      intro legible next rest other legible' alike same
      cases alike with
      | char =>
          obtain ⟨chars, behind⟩ := delimited_quoted same
          obtain rfl := List.singleton_inj.mp chars
          exact ⟨rfl, behind⟩
  | any | foreign =>
      apply apart_of_inner
      intro legible next rest other legible' alike same
      cases alike
      exact ⟨rfl, same⟩

/-- Two trees are printed alike only if they are the same tree, whatever they hold. Only foreign nodes
are ever illegible. -/
theorem render_eq_iff (left right : Tree) (legible : left.Legible) (legible' : right.Legible) :
    left.render = right.render ↔ left.same right = true := by
  rw [same_iff]
  constructor
  · intro same
    exact (apart_render left legible legible' (congrArg (· ++ []) same)).1
  · exact congrArg render

/-- A class and its negation, beside a foreign leaf that has a name of its own. -/
theorem render_eq_iff_foreign_leaf :
    let leaf : Tree := .foreign "Bogus()".toList []
    let left : Tree := .sequence [leaf, .oneOf false ['a', '\'']]
    let right : Tree := .sequence [leaf, .oneOf true ['a', '\'']]
    left.Legible ∧ right.Legible ∧ left.render ≠ right.render := by
  intro leaf left right
  have legible : left.Legible := by decide
  have legible' : right.Legible := by decide
  have different : ¬ left.same right = true := by decide
  exact ⟨legible, legible', mt (render_eq_iff left right legible legible').mp different⟩

end Tree

end RegexMachine
