import Mathlib.Computability.Language
import RegexMachine.Proofs.Attempts

/-!
# Anchored at both ends, a tree decides its language

A matcher recognizes a language when it is sound and complete for it whatever is left to be matched:
a match goes through a word of the language that is read from the text, and a failure means that
behind every such word the continuation failed. The captures that the continuation was given differ
from one way of reading a word to another, so neither says which they were.
-/

namespace RegexMachine

open RegexMachine.Machine
open scoped Computability

/-! ## Languages of trees -/

def letters (accepts : Char → Bool) : Language Char := {word | ∃ c, accepts c ∧ word = [c]}

/-- The words made of at least `least` words of the language, none if it is negative, and of at most
`most - least` further ones. -/
def repeated (language : Language Char) (least most : Int) : Language Char :=
  {word | ∃ count, least.toNat ≤ count ∧ count ≤ least.toNat + (most - least).toNat ∧
    word ∈ language ^ count}

namespace Tree

mutual

def language : Tree → Language Char
  | anchored _ _ _ => 0
  | choice alternatives => languageOfAny alternatives
  | sequence factors => languageOfAll factors
  | group body => body.language
  | star body => body.language∗
  | plus body => body.language * body.language∗
  | optional body => body.language + 1
  | range body least most => repeated body.language least most
  | any => letters fun _ => true
  | oneOf negated members => letters fun c => members.contains c != negated
  | char c => letters (· == c)
  | foreign _ _ => 0

def languageOfAny : List Tree → Language Char
  | [] => 0
  | alternative :: others => alternative.language + languageOfAny others

def languageOfAll : List Tree → Language Char
  | [] => 1
  | factor :: others => factor.language * languageOfAll others

end

def Unanchored (tree : Tree) : Prop :=
  ∀ front body back, anchored front body back ∉ tree.walk

theorem Unanchored.child {child tree : Tree} (unanchored : tree.Unanchored)
    (below : child ∈ tree.children) : child.Unanchored :=
  fun front body back member => unanchored front body back (walk_subset below member)

end Tree

theorem mem_pow_optional (language : Language Char) (count : Nat) (word : List Char) :
    word ∈ (language + 1) ^ count ↔ ∃ fewer, fewer ≤ count ∧ word ∈ language ^ fewer := by
  induction count generalizing word with
  | zero => simp
  | succ count induction =>
      rw [pow_succ', add_mul, one_mul, Language.mem_add]
      constructor
      · rintro (taken | skipped)
        · obtain ⟨first, inLanguage, rest, inPower, rfl⟩ := Language.mem_mul.mp taken
          obtain ⟨fewer, bound, inFewer⟩ := (induction rest).mp inPower
          refine ⟨fewer + 1, Nat.succ_le_succ bound, ?_⟩
          rw [pow_succ']
          exact Language.append_mem_mul inLanguage inFewer
        · obtain ⟨fewer, bound, inFewer⟩ := (induction word).mp skipped
          exact ⟨fewer, Nat.le_succ_of_le bound, inFewer⟩
      · rintro ⟨fewer, bound, inFewer⟩
        cases fewer with
        | zero => exact .inr ((induction word).mpr ⟨0, Nat.zero_le _, inFewer⟩)
        | succ fewer =>
            rw [pow_succ'] at inFewer
            obtain ⟨first, inLanguage, rest, inPower, rfl⟩ := Language.mem_mul.mp inFewer
            have ofRest := (induction rest).mpr ⟨fewer, Nat.le_of_succ_le_succ bound, inPower⟩
            exact .inl (Language.append_mem_mul inLanguage ofRest)

theorem repeated_eq (language : Language Char) (least most : Int) :
    repeated language least most =
      language ^ least.toNat * (language + 1) ^ (most - least).toNat := by
  ext word
  rw [Language.mem_mul]
  constructor
  · rintro ⟨count, atLeast, atMost, member⟩
    obtain ⟨further, rfl⟩ := Nat.exists_eq_add_of_le atLeast
    rw [pow_add] at member
    obtain ⟨first, inFirst, rest, inRest, rfl⟩ := Language.mem_mul.mp member
    have optional := (mem_pow_optional language _ rest).mpr
      ⟨further, Nat.le_of_add_le_add_left atMost, inRest⟩
    exact ⟨first, inFirst, rest, optional, rfl⟩
  · rintro ⟨first, inFirst, rest, optional, rfl⟩
    obtain ⟨further, bound, inRest⟩ := (mem_pow_optional language _ rest).mp optional
    refine ⟨least.toNat + further, Nat.le_add_right _ _, Nat.add_le_add_left bound _, ?_⟩
    rw [pow_add]
    exact Language.append_mem_mul inFirst inRest

/-! ## Reading words -/

def Reads (text : Array Char) (position : Nat) (word : List Char) : Prop :=
  word <+: text.toList.drop position

theorem reads_nil (text : Array Char) (position : Nat) : Reads text position [] := List.nil_prefix

theorem reads_append (text : Array Char) (position : Nat) (first second : List Char) :
    Reads text position (first ++ second) ↔
      Reads text position first ∧ Reads text (position + first.length) second := by
  unfold Reads
  rw [← List.drop_drop]
  constructor
  · rintro ⟨behind, same⟩
    rw [← same, List.append_assoc]
    constructor
    · exact List.prefix_append _ _
    · rw [List.drop_left]
      exact List.prefix_append _ _
  · rintro ⟨⟨behind, same⟩, ofSecond⟩
    rw [← same, List.drop_left] at ofSecond
    rw [← same]
    exact (List.prefix_append_right_inj first).mpr ofSecond

theorem reads_singleton (text : Array Char) (position : Nat) (c : Char) :
    Reads text position [c] ↔ text[position]? = some c := by
  rw [Reads, List.singleton_prefix_iff_head?_eq_some, List.head?_drop, Array.getElem?_toList]

/-! ## Recognizing languages -/

structure Recognizes (text : Array Char) (matcher : Matcher) (language : Language Char) : Prop where
  sound : ∀ {rest position captures stop made},
    matcher rest position captures = some (.matched stop made) →
    ∃ word ∈ language, Reads text position word ∧
      ∃ before, rest (position + word.length) before = some (.matched stop made)
  complete : ∀ {rest position captures},
    matcher rest position captures = some .failed →
    ∀ word ∈ language, Reads text position word →
      ∃ before, rest (position + word.length) before = some .failed

section

variable {text : Array Char} {first second body : Matcher} {left right language : Language Char}

theorem recognizes_skip : Recognizes text .skip 1 where
  sound := by
    intro rest position captures stop made matched
    exact ⟨[], Language.nil_mem_one, reads_nil text position, captures, matched⟩
  complete := by
    intro rest position captures failed word empty reads
    rw [(Language.mem_one word).mp empty]
    exact ⟨captures, failed⟩

theorem recognizes_fail : Recognizes text .fail 0 where
  sound := by
    intro rest position captures stop made matched
    cases matched
  complete := by
    intro rest position captures failed word member reads
    exact absurd member (Language.notMem_zero word)

theorem recognizes_take (accepts : Char → Bool) :
    Recognizes text (.take text accepts) (letters accepts) where
  sound := by
    intro rest position captures stop made matched
    unfold Matcher.take at matched
    split at matched
    · next c read =>
        split at matched
        · next accepted =>
            refine ⟨[c], ⟨c, accepted, rfl⟩, (reads_singleton text position c).mpr read, ?_⟩
            exact ⟨captures, matched⟩
        · cases matched
    · cases matched
  complete := by
    intro rest position captures failed word member reads
    obtain ⟨c, accepted, rfl⟩ := member
    have read := (reads_singleton text position c).mp reads
    simp only [Matcher.take, read, accepted, if_true] at failed
    exact ⟨captures, failed⟩

theorem recognizes_and_then (ofFirst : Recognizes text first left)
    (ofSecond : Recognizes text second right) :
    Recognizes text (first.andThen second) (left * right) where
  sound := by
    intro rest position captures stop made matched
    obtain ⟨word, inLeft, reads, before, onwards⟩ := ofFirst.sound matched
    obtain ⟨other, inRight, readsOther, between, behind⟩ := ofSecond.sound onwards
    refine ⟨word ++ other, Language.append_mem_mul inLeft inRight, ?_, between, ?_⟩
    · exact (reads_append text position word other).mpr ⟨reads, readsOther⟩
    · rw [List.length_append, ← Nat.add_assoc]
      exact behind
  complete := by
    intro rest position captures failed word member reads
    obtain ⟨part, inLeft, other, inRight, rfl⟩ := Language.mem_mul.mp member
    have both := (reads_append text position part other).mp reads
    obtain ⟨before, onwards⟩ := ofFirst.complete failed part inLeft both.1
    rw [List.length_append, ← Nat.add_assoc]
    exact ofSecond.complete onwards other inRight both.2

theorem recognizes_or_else (ofFirst : Recognizes text first left)
    (ofSecond : Recognizes text second right) :
    Recognizes text (first.orElse second) (left + right) where
  sound := by
    intro rest position captures stop made matched
    unfold Matcher.orElse at matched
    cases answered : first rest position captures with
    | none =>
        rw [answered] at matched
        contradiction
    | some verdict =>
        rw [answered] at matched
        cases verdict with
        | matched otherStop otherMade =>
            obtain ⟨word, inLeft, reads, behind⟩ := ofFirst.sound (answered.trans matched)
            exact ⟨word, .inl inLeft, reads, behind⟩
        | failed =>
            obtain ⟨word, inRight, reads, behind⟩ := ofSecond.sound matched
            exact ⟨word, .inr inRight, reads, behind⟩
  complete := by
    intro rest position captures failed word member reads
    have both := (or_else_failed_iff _ _).mp failed
    rcases member with inLeft | inRight
    · exact ofFirst.complete both.1 word inLeft reads
    · exact ofSecond.complete both.2 word inRight reads

theorem recognizes_optional (ofBody : Recognizes text body language) :
    Recognizes text body.optional (language + 1) :=
  recognizes_or_else ofBody recognizes_skip

theorem recognizes_star (ofBody : Recognizes text body language) (rounds : Nat) :
    Recognizes text (body.star rounds) language∗ := by
  induction rounds with
  | zero =>
      constructor
      · intro rest position captures stop made matched
        contradiction
      · intro rest position captures failed
        contradiction
  | succ rounds induction =>
      have unrolled : language∗ = language * language∗ + 1 := by
        rw [add_comm, Language.one_add_self_mul_kstar_eq_kstar]
      rw [unrolled]
      exact recognizes_optional (recognizes_and_then ofBody induction)

theorem recognizes_plus (ofBody : Recognizes text body language) (rounds : Nat) :
    Recognizes text (body.plus rounds) (language * language∗) :=
  recognizes_and_then ofBody (recognizes_star ofBody rounds)

theorem recognizes_copies (ofBody : Recognizes text body language) (count : Nat) :
    Recognizes text (body.copies count) (language ^ count) := by
  induction count with
  | zero => exact recognizes_skip
  | succ count induction =>
      rw [pow_succ']
      exact recognizes_and_then ofBody induction

theorem recognizes_range (ofBody : Recognizes text body language) (least most : Int) :
    Recognizes text (body.range least most) (repeated language least most) := by
  rw [repeated_eq, Matcher.range]
  apply recognizes_and_then
  · exact recognizes_copies ofBody _
  · exact recognizes_copies (recognizes_optional ofBody) _

theorem recognizes_group (ofBody : Recognizes text body language) :
    Recognizes text body.group language where
  sound := by
    intro rest position captures stop made matched
    obtain ⟨word, member, reads, before, behind⟩ := ofBody.sound matched
    exact ⟨word, member, reads, _, behind⟩
  complete := by
    intro rest position captures failed word member reads
    obtain ⟨before, behind⟩ := ofBody.complete failed word member reads
    exact ⟨_, behind⟩

end

theorem recognizes_any {text : Array Char} {rounds : Nat} {alternatives : List Tree}
    (each : ∀ alternative ∈ alternatives,
      Recognizes text (alternative.matcher text rounds) alternative.language) :
    Recognizes text (Tree.matcherOfAny text rounds alternatives)
      (Tree.languageOfAny alternatives) := by
  induction alternatives with
  | nil => exact recognizes_fail
  | cons alternative others induction =>
      apply recognizes_or_else
      · exact each alternative List.mem_cons_self
      · exact induction fun other member => each other (List.mem_cons_of_mem _ member)

theorem recognizes_all {text : Array Char} {rounds : Nat} {factors : List Tree}
    (each : ∀ factor ∈ factors, Recognizes text (factor.matcher text rounds) factor.language) :
    Recognizes text (Tree.matcherOfAll text rounds factors) (Tree.languageOfAll factors) := by
  induction factors with
  | nil => exact recognizes_skip
  | cons factor others induction =>
      apply recognizes_and_then
      · exact each factor List.mem_cons_self
      · exact induction fun other member => each other (List.mem_cons_of_mem _ member)

theorem recognizes_matcher (text : Array Char) (rounds : Nat) {tree : Tree}
    (unanchored : tree.Unanchored) :
    Recognizes text (tree.matcher text rounds) tree.language := by
  induction tree with
  | anchored front body back induction => exact absurd List.mem_cons_self (unanchored front body back)
  | choice alternatives induction =>
      exact recognizes_any fun alternative member => induction alternative member (unanchored.child member)
  | sequence factors induction =>
      exact recognizes_all fun factor member => induction factor member (unanchored.child member)
  | group body induction =>
      exact recognizes_group (induction (unanchored.child List.mem_cons_self))
  | star body induction =>
      exact recognizes_star (induction (unanchored.child List.mem_cons_self)) rounds
  | plus body induction =>
      exact recognizes_plus (induction (unanchored.child List.mem_cons_self)) rounds
  | optional body induction =>
      exact recognizes_optional (induction (unanchored.child List.mem_cons_self))
  | range body least most induction =>
      exact recognizes_range (induction (unanchored.child List.mem_cons_self)) least most
  | any => exact recognizes_take _
  | oneOf negated members => exact recognizes_take _
  | char c => exact recognizes_take _
  | foreign => exact recognizes_fail

/-! ## Anchors at both ends -/

section

variable {body : Tree} {text : Array Char} {rounds : Nat}

/-- What is left behind the body: the back anchor. -/
def atBack (text : Array Char) : Continuation :=
  Matcher.check (· == text.size) fun stop captures => some (.matched stop captures)

theorem anchored_answer (start : Nat) :
    (Tree.anchored true body true).answer text rounds start =
      if start == 0 then body.matcher text rounds (atBack text) start #[] else some .failed := rfl

theorem anchored_matched (unanchored : body.Unanchored) {start stop : Nat} {captures : Array Span}
    (matched : (Tree.anchored true body true).answer text rounds start =
      some (.matched stop captures)) :
    start = 0 ∧ stop = text.size ∧ text.toList ∈ body.language := by
  rw [anchored_answer] at matched
  split at matched
  · next front =>
      obtain rfl := beq_iff_eq.mp front
      obtain ⟨word, member, reads, before, behind⟩ :=
        (recognizes_matcher text rounds unanchored).sound matched
      unfold atBack Matcher.check at behind
      split at behind
      · next back =>
          have length := beq_iff_eq.mp back
          rw [Nat.zero_add] at behind length
          have whole : word = text.toList := by
            apply reads.eq_of_length
            rw [length, List.drop_zero, Array.length_toList]
          obtain ⟨same, -⟩ := Verdict.matched.inj (Option.some.inj behind)
          rw [whole] at member
          exact ⟨rfl, same.symm.trans length, member⟩
      · cases behind
  · cases matched

theorem anchored_failed (unanchored : body.Unanchored)
    (failed : (Tree.anchored true body true).answer text rounds 0 = some .failed) :
    text.toList ∉ body.language := by
  intro member
  obtain ⟨before, behind⟩ := (recognizes_matcher text rounds unanchored).complete
    (show body.matcher text rounds (atBack text) 0 #[] = some .failed from failed)
    text.toList member (List.prefix_refl _)
  simp [atBack, Matcher.check] at behind

end

theorem search_anchored_iff {body : Tree} (unanchored : body.Unanchored) {source : List Char}
    {program : Program} (compiled : (Tree.anchored true body true).compile source = .ok program)
    {text : Array Char} (nonempty : text ≠ #[]) {maxSteps : Option Nat}
    (uncut : ∀ start steps, search maxSteps program.instructions text ≠ .cut start steps) :
    ((∃ start spans steps, search maxSteps program.instructions text = .found start spans steps) ↔
      text.toList ∈ body.language) ∧
    ((∃ steps, search maxSteps program.instructions text = .absent steps) ↔
      text.toList ∉ body.language) ∧
    ∀ start spans steps, search maxSteps program.instructions text = .found start spans steps →
      spans.head? = some ⟨0, text.size⟩ := by
  rcases search_uncut compiled uncut with
    ⟨start, stop, captures, steps, rounds, inside, answered, found⟩ | ⟨fails, steps, absent⟩
  · obtain ⟨rfl, rfl, member⟩ := anchored_matched unanchored answered
    rw [found]
    refine ⟨?_, ?_, ?_⟩
    · exact iff_of_true ⟨_, _, _, rfl⟩ member
    · apply iff_of_false _ (not_not_intro member)
      rintro ⟨other, impossible⟩
      contradiction
    · intro start spans other same
      obtain ⟨-, rfl, -⟩ := SearchOutcome.found.inj same
      rfl
  · obtain ⟨rounds, failed⟩ := fails 0 (Array.size_pos_iff.mpr nonempty)
    have noMember := anchored_failed unanchored failed
    rw [absent]
    refine ⟨?_, ?_, ?_⟩
    · apply iff_of_false _ noMember
      rintro ⟨start, spans, other, impossible⟩
      contradiction
    · exact iff_of_true ⟨_, rfl⟩ noMember
    · intro start spans other impossible
      contradiction

theorem search_anchored_letters :
    let body : Tree := .sequence [.range (.group (.oneOf false ['a', 'b'])) 1 2, .star (.char 'c')]
    ∃ program, (Tree.anchored true body true).compile = .ok program ∧
      search (some 40) program.instructions #['a', 'b', 'c'] =
        .found 0 [⟨0, 3⟩, ⟨0, 1⟩, ⟨1, 2⟩] 15 ∧
      ['a', 'b', 'c'] ∈ body.language := by
  intro body
  obtain ⟨program, compiled, found⟩ :
      ∃ program, (Tree.anchored true body true).compile = .ok program ∧
        search (some 40) program.instructions #['a', 'b', 'c'] =
          .found 0 [⟨0, 3⟩, ⟨0, 1⟩, ⟨1, 2⟩] 15 := ⟨_, rfl, by decide⟩
  have unanchored : body.Unanchored := by
    intro front inner back member
    simp [body, Tree.walk, Tree.walkAll] at member
  have recognized := search_anchored_iff unanchored compiled (show #['a', 'b', 'c'] ≠ #[] by decide)
    (by rw [found]; intro start steps impossible; contradiction)
  exact ⟨program, compiled, found, recognized.1.mp ⟨_, _, _, found⟩⟩

end RegexMachine
