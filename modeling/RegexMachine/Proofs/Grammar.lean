import RegexMachine.Pattern.Scan

/-!
# The grammar of patterns

    pattern     = '^'? body '$'?
    body        = alternative ('|' alternative)*
    alternative = factor+
    factor      = atom ('*' | '+' | '?' | '{' number ',' number '}')?
    atom        = '(' body ')' | '[' '^'? member* ']' | '.' | '\' any | any

A `^` in front is the anchor or the negation. A factor behind another one begins with none of `|`, `)`
and `$`, so a `$` at the end is the anchor unless an alternative begins with it; and a quantifier
belongs to the atom in front of it if there is one. Nothing else is said of a factor that comes first.
-/

namespace RegexMachine

namespace Tree

def isAtom : Tree → Bool
  | group _ | any | oneOf _ _ | char _ => true
  | _ => false

mutual

def groupDepth : Tree → Nat
  | anchored _ body _ => body.groupDepth
  | choice alternatives => groupDepthOfAll alternatives
  | sequence factors => groupDepthOfAll factors
  | group body => body.groupDepth + 1
  | star body | plus body | optional body | range body _ _ => body.groupDepth
  | any | oneOf _ _ | char _ => 0
  | foreign _ below => groupDepthOfAll below

def groupDepthOfAll : List Tree → Nat
  | [] => 0
  | tree :: trees => max tree.groupDepth (groupDepthOfAll trees)

end

theorem group_depth_of_all_singleton (tree : Tree) : groupDepthOfAll [tree] = tree.groupDepth :=
  Nat.max_zero _

theorem group_depth_of_all_append (first second : List Tree) :
    groupDepthOfAll (first ++ second) = max (groupDepthOfAll first) (groupDepthOfAll second) := by
  induction first with
  | nil => simp [groupDepthOfAll]
  | cons tree trees induction => simp [groupDepthOfAll, induction, Nat.max_assoc]

theorem group_depth_of_all_concat (trees : List Tree) (last : Tree) :
    groupDepthOfAll (trees ++ [last]) = max (groupDepthOfAll trees) last.groupDepth := by
  rw [group_depth_of_all_append, group_depth_of_all_singleton]

end Tree

namespace Pattern

def number (digits : List Char) : Nat := Nat.ofDigitChars 10 digits 0

def marked (mark : Bool) (written : List Char) : List Char :=
  (if mark then ['^'] else []) ++ written

/-- Without a mark of its own the text does not begin with one. -/
def Unmarked (mark : Bool) (written : List Char) : Prop :=
  mark = false → written.head? ≠ some '^'

theorem unmarked_true (written : List Char) : Unmarked true written := by
  intro unmarked
  contradiction

theorem unmarked_nil (mark : Bool) : Unmarked mark [] := by
  intro _ same
  contradiction

theorem unmarked_of_append {mark : Bool} {written further : List Char}
    (unmarked : Unmarked mark (written ++ further)) : Unmarked mark written := by
  cases written with
  | nil => exact unmarked_nil mark
  | cons c rest => exact unmarked

theorem unmarked_append {mark : Bool} {written : List Char} (unmarked : Unmarked mark written)
    (some : mark = false → written ≠ []) (further : List Char) :
    Unmarked mark (written ++ further) := by
  cases written with
  | nil =>
      intro plain
      exact absurd rfl (some plain)
  | cons c rest => exact unmarked

/-- The members of a class as they are written, behind the mark of a negated one. -/
inductive Members : List Char → List Char → Prop
  | none : Members [] []
  | plain {written members c} (earlier : Members written members) (plain : c ∉ [']', '\\']) :
      Members (written ++ [c]) (members ++ [c])
  | escaped {written members} (earlier : Members written members) (c : Char) :
      Members (written ++ ['\\', c]) (members ++ [c])

/-- How a factor may begin, given the factor before it. -/
def Follows (before : Option Tree) (written : List Char) : Prop :=
  ∀ factor ∈ before, ∀ c ∈ written.head?,
    c ∉ ['|', ')', '$'] ∧ (factor.isAtom = true → c ∉ ['*', '+', '?', '{'])

theorem follows_none (written : List Char) : Follows none written := by
  intro factor isBefore
  contradiction

inductive Rule
  | pattern
  | body
  | alternative
  | factor
  | atom

/-- By the rule, the text is a way to write the tree. -/
inductive Derives : Rule → List Char → Tree → Prop
  | any : Derives .atom ['.'] .any
  | escaped (c : Char) : Derives .atom ['\\', c] (.char c)
  | plain {c} (plain : c ∉ ['(', '[', '.', '\\']) : Derives .atom [c] (.char c)
  | oneOf {negated written members} (ofMembers : Members written members)
      (unmarked : Unmarked negated written) :
      Derives .atom ('[' :: marked negated written ++ [']']) (.oneOf negated members)
  | group {written body} (ofBody : Derives .body written body) :
      Derives .atom ('(' :: written ++ [')']) (.group body)
  | single {written atom} (ofAtom : Derives .atom written atom) : Derives .factor written atom
  | star {written body} (ofBody : Derives .atom written body) :
      Derives .factor (written ++ ['*']) (.star body)
  | plus {written body} (ofBody : Derives .atom written body) :
      Derives .factor (written ++ ['+']) (.plus body)
  | optional {written body} (ofBody : Derives .atom written body) :
      Derives .factor (written ++ ['?']) (.optional body)
  | range {written body least most} (ofBody : Derives .atom written body)
      (ofLeast : ∀ c ∈ least, c.isDigit = true) (ofMost : ∀ c ∈ most, c.isDigit = true) :
      Derives .factor (written ++ ['{'] ++ least ++ [','] ++ most ++ ['}'])
        (.range body (number least) (number most))
  | first {written factor} (ofFactor : Derives .factor written factor) :
      Derives .alternative written (.sequence [factor])
  | next {earlier written factors factor}
      (ofEarlier : Derives .alternative earlier (.sequence factors))
      (ofFactor : Derives .factor written factor) (follows : Follows factors.getLast? written) :
      Derives .alternative (earlier ++ written) (.sequence (factors ++ [factor]))
  | only {written alternative} (ofAlternative : Derives .alternative written alternative) :
      Derives .body written (.choice [alternative])
  | orElse {earlier written alternatives alternative}
      (ofEarlier : Derives .body earlier (.choice alternatives))
      (ofAlternative : Derives .alternative written alternative) :
      Derives .body (earlier ++ ['|'] ++ written) (.choice (alternatives ++ [alternative]))
  | pattern {front written body} (back : Bool) (ofBody : Derives .body written body)
      (unmarked : Unmarked front written) :
      Derives .pattern (marked front written ++ if back then ['$'] else [])
        (.anchored front body back)

theorem derives_ne_nil {rule : Rule} {written : List Char} {tree : Tree}
    (derives : Derives rule written tree) : written ≠ [] := by
  induction derives with
  | any => exact List.cons_ne_nil _ _
  | escaped c => exact List.cons_ne_nil _ _
  | plain plain => exact List.cons_ne_nil _ _
  | oneOf ofMembers unmarked => exact List.cons_ne_nil _ _
  | group ofBody => exact List.cons_ne_nil _ _
  | single ofAtom some => exact some
  | star ofBody some => exact List.append_ne_nil_of_left_ne_nil some _
  | plus ofBody some => exact List.append_ne_nil_of_left_ne_nil some _
  | optional ofBody some => exact List.append_ne_nil_of_left_ne_nil some _
  | range ofBody ofLeast ofMost some => simp [some]
  | first ofFactor some => exact some
  | next ofEarlier ofFactor follows some => exact List.append_ne_nil_of_left_ne_nil some _
  | only ofAlternative some => exact some
  | orElse ofEarlier ofAlternative some => simp [some]
  | pattern back ofBody unmarked some => simp [marked, some]

end Pattern

end RegexMachine
