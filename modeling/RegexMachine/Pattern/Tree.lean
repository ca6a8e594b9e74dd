/-!
The tree of a pattern: anchors around a body, choices of sequences, groups, repetitions, and the
tests of one character. Trees are compared by shape, and walked from a node to its children from
left to right.
-/

namespace RegexMachine

inductive Tree
  /-- A body that has to begin at the front of the text, end at its back, or both. -/
  | anchored (front : Bool) (body : Tree) (back : Bool)
  | choice (alternatives : List Tree)
  | sequence (factors : List Tree)
  /-- A body whose place in the text is reported. -/
  | group (body : Tree)
  | star (body : Tree)
  | plus (body : Tree)
  | optional (body : Tree)
  /-- At least `least` and at most `most` copies. -/
  | range (body : Tree) (least most : Int)
  | any
  | oneOf (negated : Bool) (members : List Char)
  | char (c : Char)
  /-- A node of a kind that is none of these. -/
  | foreign (written : List Char) (below : List Tree)
deriving Repr, Inhabited

namespace Tree

/-- Induction over trees, with a hypothesis for each tree of a list. -/
@[induction_eliminator]
theorem induction {motive : Tree → Prop}
    (anchored : ∀ front body back, motive body → motive (anchored front body back))
    (choice : ∀ alternatives, (∀ tree ∈ alternatives, motive tree) → motive (choice alternatives))
    (sequence : ∀ factors, (∀ tree ∈ factors, motive tree) → motive (sequence factors))
    (group : ∀ body, motive body → motive (group body))
    (star : ∀ body, motive body → motive (star body))
    (plus : ∀ body, motive body → motive (plus body))
    (optional : ∀ body, motive body → motive (optional body))
    (range : ∀ body least most, motive body → motive (range body least most))
    (any : motive any) (oneOf : ∀ negated members, motive (oneOf negated members))
    (char : ∀ c, motive (char c))
    (foreign : ∀ written below, (∀ tree ∈ below, motive tree) → motive (foreign written below))
    (tree : Tree) : motive tree :=
  @Tree.rec motive (fun trees => ∀ tree ∈ trees, motive tree) anchored choice sequence group star
    plus optional range any oneOf char foreign (by simp)
    (fun head rest ofHead ofRest tree member => by
      rcases List.mem_cons.mp member with rfl | inRest
      · exact ofHead
      · exact ofRest tree inRest)
    tree

def children : Tree → List Tree
  | anchored _ body _ | group body | star body | plus body | optional body | range body _ _ =>
      [body]
  | choice alternatives => alternatives
  | sequence factors => factors
  | any | oneOf _ _ | char _ => []
  | foreign _ below => below

mutual

/-- The node and all below it, a node before its children. -/
def walk : Tree → List Tree
  | anchored front body back => anchored front body back :: body.walk
  | choice alternatives => choice alternatives :: walkAll alternatives
  | sequence factors => sequence factors :: walkAll factors
  | group body => group body :: body.walk
  | star body => star body :: body.walk
  | plus body => plus body :: body.walk
  | optional body => optional body :: body.walk
  | range body least most => range body least most :: body.walk
  | any => [any]
  | oneOf negated members => [oneOf negated members]
  | char c => [char c]
  | foreign written below => foreign written below :: walkAll below

def walkAll : List Tree → List Tree
  | [] => []
  | tree :: trees => tree.walk ++ walkAll trees

end

theorem walk_all_eq_flat_map (trees : List Tree) : walkAll trees = trees.flatMap walk := by
  induction trees with
  | nil => rfl
  | cons tree trees induction => simp [walkAll, induction]

theorem walk_eq_cons_children (tree : Tree) :
    tree.walk = tree :: tree.children.flatMap walk := by
  cases tree <;> simp [walk, children, walk_all_eq_flat_map]

theorem walk_subset {child tree : Tree} (below : child ∈ tree.children) : child.walk ⊆ tree.walk := by
  intro node member
  rw [walk_eq_cons_children]
  exact List.mem_cons_of_mem _ (List.mem_flatMap.mpr ⟨child, below, member⟩)

def isGroup : Tree → Bool
  | group _ => true
  | _ => false

def groupCount (tree : Tree) : Nat := tree.walk.countP isGroup

mutual

def same : Tree → Tree → Bool
  | anchored front body back, anchored front' body' back' =>
      front == front' && body.same body' && back == back'
  | choice alternatives, choice alternatives' => sameAll alternatives alternatives'
  | sequence factors, sequence factors' => sameAll factors factors'
  | group body, group body' => body.same body'
  | star body, star body' => body.same body'
  | plus body, plus body' => body.same body'
  | optional body, optional body' => body.same body'
  | range body least most, range body' least' most' =>
      body.same body' && least == least' && most == most'
  | any, any => true
  | oneOf negated members, oneOf negated' members' => negated == negated' && members == members'
  | char c, char c' => c == c'
  | foreign written below, foreign written' below' => written == written' && sameAll below below'
  | _, _ => false

def sameAll : List Tree → List Tree → Bool
  | [], [] => true
  | tree :: trees, tree' :: trees' => tree.same tree' && sameAll trees trees'
  | _, _ => false

end

mutual

theorem same_iff : ∀ left right : Tree, left.same right = true ↔ left = right
  | anchored _ body _, right => by
      cases right <;> simp [same, same_iff body, and_assoc]
  | choice alternatives, right => by cases right <;> simp [same, same_all_iff alternatives]
  | sequence factors, right => by cases right <;> simp [same, same_all_iff factors]
  | group body, right => by cases right <;> simp [same, same_iff body]
  | star body, right => by cases right <;> simp [same, same_iff body]
  | plus body, right => by cases right <;> simp [same, same_iff body]
  | optional body, right => by cases right <;> simp [same, same_iff body]
  | range body _ _, right => by cases right <;> simp [same, same_iff body, and_assoc]
  | any, right => by cases right <;> simp [same]
  | oneOf _ _, right => by cases right <;> simp [same]
  | char _, right => by cases right <;> simp [same]
  | foreign _ below, right => by cases right <;> simp [same, same_all_iff below]

theorem same_all_iff : ∀ left right : List Tree, sameAll left right = true ↔ left = right
  | [], right => by cases right <;> simp [sameAll]
  | tree :: trees, right => by
      cases right <;> simp [sameAll, same_iff tree, same_all_iff trees]

end

instance : DecidableEq Tree := fun left right => decidable_of_iff _ (same_iff left right)

end Tree

end RegexMachine
