import Mathlib.Data.List.Induction
import RegexMachine.Proofs.Scans
import RegexMachine.Text.Numeral

/-!
# Trees written as patterns

A canonical tree is one that a pattern can have: each node stands in a place where the grammar has a
rule for it. Written with an escape in front of every literal and every member of a class, such a tree
derives from its text, so reading the text gives it back up to the limit of nesting. No other tree is
ever read.
-/

namespace RegexMachine

open RegexMachine.Text

namespace Tree

def escaped (chars : List Char) : List Char := chars.flatMap fun c => ['\\', c]

mutual

def toPattern : Tree → List Char
  | anchored front body back =>
      (if front then ['^'] else []) ++ body.toPattern ++ if back then ['$'] else []
  | choice alternatives => toPatternOfAny alternatives
  | sequence factors => toPatternOfAll factors
  | group body => '(' :: body.toPattern ++ [')']
  | star body => body.toPattern ++ ['*']
  | plus body => body.toPattern ++ ['+']
  | optional body => body.toPattern ++ ['?']
  | range body least most =>
      body.toPattern ++ ['{'] ++ decimal least ++ [','] ++ decimal most ++ ['}']
  | any => ['.']
  | oneOf negated members => '[' :: (if negated then ['^'] else []) ++ escaped members ++ [']']
  | char c => escaped [c]
  | foreign _ _ => []

def toPatternOfAny : List Tree → List Char
  | [] => []
  | [alternative] => alternative.toPattern
  | alternative :: next :: others =>
      alternative.toPattern ++ ['|'] ++ toPatternOfAny (next :: others)

def toPatternOfAll : List Tree → List Char
  | [] => []
  | factor :: others => factor.toPattern ++ toPatternOfAll others

end

theorem to_pattern_of_all_concat (factors : List Tree) (last : Tree) :
    toPatternOfAll (factors ++ [last]) = toPatternOfAll factors ++ last.toPattern := by
  induction factors with
  | nil => simp [toPatternOfAll]
  | cons factor others induction => simp [toPatternOfAll, induction]

theorem to_pattern_of_any_concat {alternatives : List Tree} (some : alternatives ≠ []) (last : Tree) :
    toPatternOfAny (alternatives ++ [last]) =
      toPatternOfAny alternatives ++ ['|'] ++ last.toPattern := by
  induction alternatives with
  | nil => contradiction
  | cons alternative others induction =>
      cases others with
      | nil => rfl
      | cons next others =>
          have further := induction (List.cons_ne_nil _ _)
          rw [List.cons_append] at further
          rw [List.cons_append, List.cons_append, toPatternOfAny, further, toPatternOfAny]
          simp only [List.append_assoc]

end Tree

namespace Pattern

/-- The tree may stand where the rule derives one. -/
inductive Canonical : Rule → Tree → Prop
  | any : Canonical .atom .any
  | char (c : Char) : Canonical .atom (.char c)
  | oneOf (negated : Bool) (members : List Char) : Canonical .atom (.oneOf negated members)
  | group {body} (ofBody : Canonical .body body) : Canonical .atom (.group body)
  | single {atom} (ofAtom : Canonical .atom atom) : Canonical .factor atom
  | star {body} (ofBody : Canonical .atom body) : Canonical .factor (.star body)
  | plus {body} (ofBody : Canonical .atom body) : Canonical .factor (.plus body)
  | optional {body} (ofBody : Canonical .atom body) : Canonical .factor (.optional body)
  | range {body} (ofBody : Canonical .atom body) (least most : Nat) :
      Canonical .factor (.range body least most)
  | sequence {factors} (some : factors ≠ [])
      (ofFactors : ∀ factor ∈ factors, Canonical .factor factor) :
      Canonical .alternative (.sequence factors)
  | choice {alternatives} (some : alternatives ≠ [])
      (ofAlternatives : ∀ alternative ∈ alternatives, Canonical .alternative alternative) :
      Canonical .body (.choice alternatives)
  | anchored {body} (front back : Bool) (ofBody : Canonical .body body) :
      Canonical .pattern (.anchored front body back)

/-! ## Derived trees are canonical -/

theorem canonical_of_derives {rule : Rule} {written : List Char} {tree : Tree}
    (derives : Derives rule written tree) : Canonical rule tree := by
  induction derives with
  | any => exact .any
  | escaped c => exact .char c
  | plain plain => exact .char _
  | oneOf ofMembers unmarked => exact .oneOf _ _
  | group ofBody body => exact .group body
  | single ofAtom atom => exact .single atom
  | star ofBody body => exact .star body
  | plus ofBody body => exact .plus body
  | optional ofBody body => exact .optional body
  | range ofBody ofLeast ofMost body => exact .range body _ _
  | first ofFactor factor =>
      exact .sequence (List.cons_ne_nil _ _) (List.forall_mem_singleton.mpr factor)
  | next ofEarlier ofFactor follows earlier factor =>
      cases earlier with
      | sequence some ofFactors =>
          refine .sequence (List.append_ne_nil_of_left_ne_nil some _) ?_
          exact List.forall_mem_append.mpr ⟨ofFactors, List.forall_mem_singleton.mpr factor⟩
  | only ofAlternative alternative =>
      exact .choice (List.cons_ne_nil _ _) (List.forall_mem_singleton.mpr alternative)
  | orElse ofEarlier ofAlternative earlier alternative =>
      cases earlier with
      | choice some ofAlternatives =>
          refine .choice (List.append_ne_nil_of_left_ne_nil some _) ?_
          exact List.forall_mem_append.mpr ⟨ofAlternatives, List.forall_mem_singleton.mpr alternative⟩
  | pattern back ofBody unmarked body => exact .anchored _ back body

/-! ## Canonical trees derive from their patterns -/

def Opens (written : List Char) : Prop :=
  ∃ c rest, written = c :: rest ∧ c ∈ ['.', '\\', '[', '(']

theorem opens_append {written : List Char} (opens : Opens written) (further : List Char) :
    Opens (written ++ further) := by
  obtain ⟨c, rest, rfl, member⟩ := opens
  exact ⟨c, rest ++ further, rfl, member⟩

theorem opens_to_pattern {rule : Rule} {tree : Tree} (canonical : Canonical rule tree)
    (inside : rule ≠ .pattern) : Opens tree.toPattern := by
  induction canonical with
  | any => exact ⟨'.', [], rfl, by decide⟩
  | char c => exact ⟨'\\', [c], rfl, by decide⟩
  | oneOf negated members => exact ⟨'[', _, rfl, by decide⟩
  | group ofBody => exact ⟨'(', _, rfl, by decide⟩
  | single ofAtom opens => exact opens nofun
  | star ofBody opens => exact opens_append (opens nofun) _
  | plus ofBody opens => exact opens_append (opens nofun) _
  | optional ofBody opens => exact opens_append (opens nofun) _
  | range ofBody least most opens =>
      simp only [Tree.toPattern, List.append_assoc]
      exact opens_append (opens nofun) _
  | @sequence factors some ofFactors opens =>
      cases factors with
      | nil => contradiction
      | cons factor others => exact opens_append (opens factor List.mem_cons_self nofun) _
  | @choice alternatives some ofAlternatives opens =>
      cases alternatives with
      | nil => contradiction
      | cons alternative others =>
          have first := opens alternative List.mem_cons_self nofun
          cases others with
          | nil => exact first
          | cons next others =>
              simp only [Tree.toPattern, Tree.toPatternOfAny, List.append_assoc]
              exact opens_append first _
  | anchored front back ofBody => contradiction

theorem follows_of_opens {written : List Char} (opens : Opens written) (before : Option Tree) :
    Follows before written := by
  obtain ⟨c, rest, rfl, member⟩ := opens
  have plain : ['.', '\\', '[', '('].all (· ∉ ['|', ')', '$', '*', '+', '?', '{']) = true := rfl
  exact follows_of_plain (of_decide_eq_true (List.all_eq_true.mp plain c member)) before rest

theorem unmarked_of_opens {written : List Char} (opens : Opens written) (mark : Bool) :
    Unmarked mark written := by
  obtain ⟨c, rest, rfl, member⟩ := opens
  intro _ same
  obtain rfl := Option.some.inj same
  contradiction

theorem members_escaped (members : List Char) : Members (Tree.escaped members) members := by
  induction members using List.reverseRecOn with
  | nil => exact .none
  | append_singleton members c induction =>
      rw [Tree.escaped, List.flatMap_append]
      exact .escaped induction c

theorem unmarked_escaped (mark : Bool) (chars : List Char) : Unmarked mark (Tree.escaped chars) := by
  cases chars with
  | nil => exact unmarked_nil mark
  | cons c chars =>
      intro _ same
      have escape : '\\' = '^' := Option.some.inj same
      contradiction

theorem number_to_digits (value : Nat) : number (Nat.toDigits 10 value) = value :=
  Nat.ofDigitChars_toDigits (by decide) (by decide)

theorem is_digit_to_digits (value : Nat) : ∀ c ∈ Nat.toDigits 10 value, c.isDigit = true :=
  fun _ member => Nat.isDigit_of_mem_toDigits (by decide) (by decide) member

theorem derives_range {body : Tree} (ofBody : Derives .atom body.toPattern body) (least most : Nat) :
    Derives .factor (Tree.range body least most).toPattern (.range body least most) := by
  have derives := Derives.range ofBody (is_digit_to_digits least) (is_digit_to_digits most)
  rw [number_to_digits, number_to_digits] at derives
  exact derives

theorem derives_sequence {factors : List Tree} (some : factors ≠ [])
    (ofFactors : ∀ factor ∈ factors, Derives .factor factor.toPattern factor ∧ Opens factor.toPattern) :
    Derives .alternative (Tree.toPatternOfAll factors) (.sequence factors) := by
  induction factors using List.reverseRecOn with
  | nil => contradiction
  | append_singleton factors last induction =>
      rw [List.forall_mem_append, List.forall_mem_singleton] at ofFactors
      obtain ⟨ofEarlier, ofLast, opens⟩ := ofFactors
      rw [Tree.to_pattern_of_all_concat]
      cases factors with
      | nil => exact .first ofLast
      | cons factor others =>
          exact .next (induction (List.cons_ne_nil _ _) ofEarlier) ofLast (follows_of_opens opens _)

theorem derives_choice {alternatives : List Tree} (some : alternatives ≠ [])
    (ofAlternatives : ∀ alternative ∈ alternatives,
      Derives .alternative alternative.toPattern alternative) :
    Derives .body (Tree.toPatternOfAny alternatives) (.choice alternatives) := by
  induction alternatives using List.reverseRecOn with
  | nil => contradiction
  | append_singleton alternatives last induction =>
      rw [List.forall_mem_append, List.forall_mem_singleton] at ofAlternatives
      cases alternatives with
      | nil => exact .only ofAlternatives.2
      | cons alternative others =>
          rw [Tree.to_pattern_of_any_concat (List.cons_ne_nil _ _)]
          exact .orElse (induction (List.cons_ne_nil _ _) ofAlternatives.1) ofAlternatives.2

theorem derives_to_pattern {rule : Rule} {tree : Tree} (canonical : Canonical rule tree) :
    Derives rule tree.toPattern tree := by
  induction canonical with
  | any => exact .any
  | char c => exact .escaped c
  | oneOf negated members => exact .oneOf (members_escaped members) (unmarked_escaped negated members)
  | group ofBody body => exact .group body
  | single ofAtom atom => exact .single atom
  | star ofBody body => exact .star body
  | plus ofBody body => exact .plus body
  | optional ofBody body => exact .optional body
  | range ofBody least most body => exact derives_range body least most
  | sequence some ofFactors derives =>
      exact derives_sequence some fun factor member =>
        ⟨derives factor member, opens_to_pattern (ofFactors factor member) nofun⟩
  | choice some ofAlternatives derives => exact derives_choice some derives
  | anchored front back ofBody body =>
      exact .pattern back body (unmarked_of_opens (opens_to_pattern ofBody nofun) front)

/-- A canonical tree is read from its pattern unless its groups are nested too deeply, and the trees
that are read are canonical. -/
theorem parse_to_pattern (limits : Limits) :
    (∀ tree, Canonical .pattern tree →
      (tree.groupDepth ≤ limits.maxDepth → parse limits tree.toPattern = .ok tree) ∧
      (limits.maxDepth < tree.groupDepth →
        ∃ position, parse limits tree.toPattern = .error ⟨.tooDeep limits.maxDepth, position⟩)) ∧
    ∀ pattern tree, parse limits pattern = .ok tree →
      Canonical .pattern tree ∧ tree.groupDepth ≤ limits.maxDepth ∧
        parse limits tree.toPattern = .ok tree := by
  constructor
  · intro tree canonical
    have derives := derives_to_pattern canonical
    exact ⟨parse_of_within derives, parse_of_deeper derives⟩
  · intro pattern tree parsed
    have canonical := canonical_of_derives (derives_of_parse parsed)
    have depth := group_depth_of_parse parsed
    exact ⟨canonical, depth, parse_of_within (derives_to_pattern canonical) depth⟩

theorem parse_to_pattern_nested :
    let inner : Tree := .choice [.sequence [.oneOf false ['^', ']'], .range (.char '9') 0 10]]
    let tree : Tree := .anchored false (.choice [.sequence [.plus (.group (.choice
      [.sequence [.char '$'], .sequence [.group inner]]))]]) true
    Canonical .pattern tree ∧ parse .standard tree.toPattern = .ok tree ∧
      ∃ position, parse { maxDepth := 1 } tree.toPattern = .error ⟨.tooDeep 1, position⟩ := by
  intro inner tree
  obtain ⟨canonical, -, again⟩ := (parse_to_pattern .standard).2 tree.toPattern tree rfl
  exact ⟨canonical, again, ((parse_to_pattern { maxDepth := 1 }).1 tree canonical).2 (by decide)⟩

end Pattern

end RegexMachine
