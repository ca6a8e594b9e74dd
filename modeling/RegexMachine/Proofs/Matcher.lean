import RegexMachine.Machine.State

/-!
# Matching straight off the tree

A matcher gets what is left to be matched as a continuation, and answers for both: it tries its ways
to go on from an offset in their order, and the first one whose continuation does not fail settles
the answer. Captures are handed from one matcher to the next, so a failure resumes a choice with the
captures that were made before it. Loops are given a number of rounds. The answer is `none` where
these do not suffice, and does not depend on their number where they do.
-/

namespace RegexMachine

inductive Verdict
  | matched (stop : Nat) (captures : Array Span)
  | failed
deriving DecidableEq, Repr

abbrev Answer := Option Verdict

/-- What is left to be matched, from an offset and with the captures made so far. -/
abbrev Continuation := Nat → Array Span → Answer

abbrev Matcher := Continuation → Continuation

def Answer.orElse : Answer → Answer → Answer
  | some .failed, other => other
  | answer, _ => answer

theorem or_else_failed_iff (first second : Answer) :
    first.orElse second = some .failed ↔ first = some .failed ∧ second = some .failed := by
  cases first with
  | none => simp [Answer.orElse]
  | some verdict => cases verdict <;> simp [Answer.orElse]

namespace Matcher

def skip : Matcher := fun rest => rest

def fail : Matcher := fun _ _ _ => some .failed

def take (text : Array Char) (accepts : Char → Bool) : Matcher := fun rest position captures =>
  match text[position]? with
  | some c => if accepts c then rest (position + 1) captures else some .failed
  | none => some .failed

def check (holds : Nat → Bool) : Matcher := fun rest position captures =>
  if holds position then rest position captures else some .failed

def andThen (first second : Matcher) : Matcher := fun rest => first (second rest)

def orElse (first second : Matcher) : Matcher := fun rest position captures =>
  (first rest position captures).orElse (second rest position captures)

def optional (body : Matcher) : Matcher := body.orElse skip

def star (body : Matcher) : (rounds : Nat) → Matcher
  | 0 => fun _ _ _ => none
  | rounds + 1 => (body.andThen (body.star rounds)).optional

def plus (body : Matcher) (rounds : Nat) : Matcher := body.andThen (body.star rounds)

def copies (body : Matcher) : (count : Nat) → Matcher
  | 0 => skip
  | count + 1 => body.andThen (body.copies count)

def range (body : Matcher) (least most : Int) : Matcher :=
  (body.copies least.toNat).andThen (body.optional.copies (most - least).toNat)

def group (body : Matcher) : Matcher := fun rest position captures =>
  body (fun stop captures => rest stop (captures.push ⟨position, stop⟩)) position captures

def anchored (text : Array Char) (front : Bool) (body : Matcher) (back : Bool) : Matcher :=
  ((if front then check (· == 0) else skip).andThen body).andThen
    (if back then check (· == text.size) else skip)

theorem or_else_assoc (first second third : Matcher) :
    (first.orElse second).orElse third = first.orElse (second.orElse third) := by
  funext rest position captures
  simp only [orElse]
  cases first rest position captures with
  | none => rfl
  | some verdict => cases verdict <;> rfl

theorem or_else_fail (matcher : Matcher) : matcher.orElse fail = matcher := by
  funext rest position captures
  simp only [orElse, fail]
  cases matcher rest position captures with
  | none => rfl
  | some verdict => cases verdict <;> rfl

end Matcher

namespace Tree

mutual

def matcher (text : Array Char) (rounds : Nat) : Tree → Matcher
  | anchored front body back => .anchored text front (body.matcher text rounds) back
  | choice alternatives => matcherOfAny text rounds alternatives
  | sequence factors => matcherOfAll text rounds factors
  | group body => (body.matcher text rounds).group
  | star body => (body.matcher text rounds).star rounds
  | plus body => (body.matcher text rounds).plus rounds
  | optional body => (body.matcher text rounds).optional
  | range body least most => (body.matcher text rounds).range least most
  | any => .take text fun _ => true
  | oneOf negated members => .take text fun c => members.contains c != negated
  | char c => .take text (· == c)
  | foreign _ _ => .fail

def matcherOfAny (text : Array Char) (rounds : Nat) : List Tree → Matcher
  | [] => .fail
  | alternative :: others => (alternative.matcher text rounds).orElse (matcherOfAny text rounds others)

def matcherOfAll (text : Array Char) (rounds : Nat) : List Tree → Matcher
  | [] => .skip
  | factor :: others => (factor.matcher text rounds).andThen (matcherOfAll text rounds others)

end

theorem matcher_of_any_append (text : Array Char) (rounds : Nat) (earlier later : List Tree) :
    matcherOfAny text rounds (earlier ++ later) =
      (matcherOfAny text rounds earlier).orElse (matcherOfAny text rounds later) := by
  induction earlier with
  | nil => rfl
  | cons alternative others induction =>
      rw [List.cons_append, matcherOfAny, matcherOfAny, induction, Matcher.or_else_assoc]

theorem matcher_of_any_singleton (text : Array Char) (rounds : Nat) (tree : Tree) :
    matcherOfAny text rounds [tree] = tree.matcher text rounds := by
  rw [matcherOfAny, matcherOfAny, Matcher.or_else_fail]

theorem matcher_of_all_append (text : Array Char) (rounds : Nat) (earlier later : List Tree) :
    matcherOfAll text rounds (earlier ++ later) =
      (matcherOfAll text rounds earlier).andThen (matcherOfAll text rounds later) := by
  induction earlier with
  | nil => rfl
  | cons factor others induction =>
      rw [List.cons_append, matcherOfAll, matcherOfAll, induction]
      rfl

/-- What matching comes to that begins at `start` and has nothing left behind the tree. -/
def answer (tree : Tree) (text : Array Char) (rounds start : Nat) : Answer :=
  tree.matcher text rounds (fun stop captures => some (.matched stop captures)) start #[]

end Tree

/-! ## Relations that matchers respect -/

/-- Relations of answers that hold whatever a loop without rounds left would have answered. -/
structure Congruent (relates : Answer → Answer → Prop) : Prop where
  failed : relates (some .failed) (some .failed)
  unknown : ∀ answer, relates none answer
  orElse : ∀ {first second first' second' : Answer}, relates first first' →
    relates second second' → relates (first.orElse second) (first'.orElse second')

def Matcher.Respects (relates : Answer → Answer → Prop) (left right : Matcher) : Prop :=
  ∀ leftRest rightRest : Continuation,
    (∀ position captures, relates (leftRest position captures) (rightRest position captures)) →
    ∀ position captures,
      relates (left leftRest position captures) (right rightRest position captures)

section

variable {relates : Answer → Answer → Prop} {left right left' right' : Matcher}

theorem respects_skip : Matcher.Respects relates .skip .skip := by
  intro leftRest rightRest related
  exact related

theorem respects_fail (congruent : Congruent relates) : Matcher.Respects relates .fail .fail := by
  intro leftRest rightRest related position captures
  exact congruent.failed

theorem respects_take (congruent : Congruent relates) (text : Array Char)
    (accepts : Char → Bool) : Matcher.Respects relates (.take text accepts) (.take text accepts) := by
  intro leftRest rightRest related position captures
  simp only [Matcher.take]
  split
  · split
    · exact related _ _
    · exact congruent.failed
  · exact congruent.failed

theorem respects_check (congruent : Congruent relates) (holds : Nat → Bool) :
    Matcher.Respects relates (.check holds) (.check holds) := by
  intro leftRest rightRest related position captures
  simp only [Matcher.check]
  split
  · exact related _ _
  · exact congruent.failed

theorem respects_and_then (first : Matcher.Respects relates left left')
    (second : Matcher.Respects relates right right') :
    Matcher.Respects relates (left.andThen right) (left'.andThen right') := by
  intro leftRest rightRest related
  exact first _ _ (second _ _ related)

theorem respects_or_else (congruent : Congruent relates)
    (first : Matcher.Respects relates left left')
    (second : Matcher.Respects relates right right') :
    Matcher.Respects relates (left.orElse right) (left'.orElse right') := by
  intro leftRest rightRest related position captures
  exact congruent.orElse (first _ _ related _ _) (second _ _ related _ _)

theorem respects_optional (congruent : Congruent relates)
    (body : Matcher.Respects relates left left') :
    Matcher.Respects relates left.optional left'.optional :=
  respects_or_else congruent body respects_skip

theorem respects_star (congruent : Congruent relates) (body : Matcher.Respects relates left left')
    {rounds more : Nat} (enough : rounds ≤ more) :
    Matcher.Respects relates (left.star rounds) (left'.star more) := by
  induction rounds generalizing more with
  | zero =>
      intro leftRest rightRest related position captures
      exact congruent.unknown _
  | succ rounds induction =>
      cases more with
      | zero => contradiction
      | succ more =>
          have again := induction (Nat.le_of_succ_le_succ enough)
          exact respects_optional congruent (respects_and_then body again)

theorem respects_plus (congruent : Congruent relates) (body : Matcher.Respects relates left left')
    {rounds more : Nat} (enough : rounds ≤ more) :
    Matcher.Respects relates (left.plus rounds) (left'.plus more) := by
  unfold Matcher.plus
  exact respects_and_then body (respects_star congruent body enough)

theorem respects_copies (body : Matcher.Respects relates left left') (count : Nat) :
    Matcher.Respects relates (left.copies count) (left'.copies count) := by
  induction count with
  | zero => exact respects_skip
  | succ count induction => exact respects_and_then body induction

theorem respects_range (congruent : Congruent relates) (body : Matcher.Respects relates left left')
    (least most : Int) : Matcher.Respects relates (left.range least most) (left'.range least most) := by
  unfold Matcher.range
  apply respects_and_then
  · exact respects_copies body _
  · exact respects_copies (respects_optional congruent body) _

theorem respects_group (body : Matcher.Respects relates left left') :
    Matcher.Respects relates left.group left'.group := by
  intro leftRest rightRest related position captures
  apply body
  intro stop captures
  exact related _ _

theorem respects_anchored (congruent : Congruent relates)
    (body : Matcher.Respects relates left left') (text : Array Char) (front back : Bool) :
    Matcher.Respects relates (.anchored text front left back)
      (.anchored text front left' back) := by
  apply respects_and_then
  · apply respects_and_then _ body
    split
    · exact respects_check congruent _
    · exact respects_skip
  · split
    · exact respects_check congruent _
    · exact respects_skip

theorem respects_matcher (congruent : Congruent relates) (text : Array Char) {rounds more : Nat}
    (enough : rounds ≤ more) (tree : Tree) :
    Matcher.Respects relates (tree.matcher text rounds) (tree.matcher text more) := by
  induction tree with
  | anchored front body back induction => exact respects_anchored congruent induction text front back
  | choice alternatives induction =>
      show Matcher.Respects relates (Tree.matcherOfAny text rounds alternatives)
        (Tree.matcherOfAny text more alternatives)
      induction alternatives with
      | nil => exact respects_fail congruent
      | cons alternative others ofOthers =>
          exact respects_or_else congruent (induction alternative List.mem_cons_self)
            (ofOthers fun tree member => induction tree (List.mem_cons_of_mem _ member))
  | sequence factors induction =>
      show Matcher.Respects relates (Tree.matcherOfAll text rounds factors)
        (Tree.matcherOfAll text more factors)
      induction factors with
      | nil => exact respects_skip
      | cons factor others ofOthers =>
          exact respects_and_then (induction factor List.mem_cons_self)
            (ofOthers fun tree member => induction tree (List.mem_cons_of_mem _ member))
  | group body induction => exact respects_group induction
  | star body induction => exact respects_star congruent induction enough
  | plus body induction => exact respects_plus congruent induction enough
  | optional body induction => exact respects_optional congruent induction
  | range body least most induction => exact respects_range congruent induction least most
  | any => exact respects_take congruent text _
  | oneOf negated members => exact respects_take congruent text _
  | char c => exact respects_take congruent text _
  | foreign => exact respects_fail congruent

end

/-- The other answer is the same, but may be known where this one is not. -/
def Answer.Within (fewer more : Answer) : Prop := ∀ verdict, fewer = some verdict → more = some verdict

theorem congruent_within : Congruent Answer.Within where
  failed := fun _ known => known
  unknown := by intro answer verdict known; contradiction
  orElse := by
    intro first second first' second' ofFirst ofSecond verdict known
    cases first with
    | none => contradiction
    | some reached =>
        rw [ofFirst reached rfl]
        cases reached with
        | matched stop captures => exact known
        | failed => exact ofSecond verdict known

/-- Further rounds do not change an answer. -/
theorem answer_of_more_rounds (tree : Tree) (text : Array Char) {rounds more : Nat}
    (enough : rounds ≤ more) {start : Nat} {verdict : Verdict}
    (known : tree.answer text rounds start = some verdict) :
    tree.answer text more start = some verdict :=
  respects_matcher congruent_within text enough tree _ _ (fun _ _ _ same => same) start #[] verdict
    known

theorem answer_unique {tree : Tree} {text : Array Char} {rounds otherRounds start : Nat}
    {verdict other : Verdict} (known : tree.answer text rounds start = some verdict)
    (otherKnown : tree.answer text otherRounds start = some other) : verdict = other := by
  rcases Nat.le_total rounds otherRounds with fewer | fewer
  · have again := answer_of_more_rounds tree text fewer known
    exact Option.some.inj (again.symm.trans otherKnown)
  · have again := answer_of_more_rounds tree text fewer otherKnown
    exact Option.some.inj (known.symm.trans again)

end RegexMachine
