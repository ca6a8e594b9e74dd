import RegexMachine.Proofs.Derivations
import RegexMachine.Proofs.Leftmost
import RegexMachine.Proofs.Scans
import RegexMachine.Proofs.Simulation

/-!
# Words as patterns

A word becomes a pattern for itself once the characters that have a meaning in patterns stand behind a
backslash. Its program takes a character in every step, so an attempt ends where the text is no longer
the word, after one step more than the word has characters at most, and a search looks for the word.
-/

namespace RegexMachine

open RegexMachine.Machine RegexMachine.Indexing

namespace Pattern

def special : List Char := ['\\', '^', '$', '|', '(', ')', '[', '.', '*', '+', '?', '{']

/-- A character is written behind a backslash or, if it has no meaning of its own, as itself. -/
inductive Letter : List Char → Char → Prop
  | escaped (c : Char) : Letter ['\\', c] c
  | plain {c} (plain : c ∉ special) : Letter [c] c

inductive Spells : List Char → List Char → Prop
  | nil : Spells [] []
  | next {written word letter c} (earlier : Spells written word) (last : Letter letter c) :
      Spells (written ++ letter) (word ++ [c])

section

variable {written letter word : List Char} {c : Char}

theorem derives_letter (ofLetter : Letter letter c) : Derives .factor letter (.char c) := by
  cases ofLetter with
  | escaped => exact .single (.escaped c)
  | plain plain =>
      have known : ['(', '[', '.', '\\'] ⊆ special := by decide
      exact .single (.plain fun member => plain (known member))

theorem follows_letter (ofLetter : Letter letter c) (before : Option Tree) : Follows before letter := by
  cases ofLetter with
  | escaped => exact follows_of_plain (by decide) before [c]
  | plain plain =>
      have known : ['|', ')', '$', '*', '+', '?', '{'] ⊆ special := by decide
      exact follows_of_plain (fun member => plain (known member)) before []

theorem unmarked_letter (ofLetter : Letter letter c) : Unmarked false letter := by
  intro _ marked
  cases ofLetter with
  | escaped => exact absurd (Option.some.inj marked) (by decide)
  | plain plain =>
      obtain rfl := Option.some.inj marked
      exact plain (by decide)

theorem derives_spelled (spells : Spells written word) (nonempty : word ≠ []) :
    Derives .alternative written (.sequence (word.map .char)) := by
  induction spells with
  | nil => contradiction
  | next earlier last induction =>
      rw [List.map_append]
      cases earlier with
      | nil => exact .first (derives_letter last)
      | next _ _ =>
          exact .next (induction (by simp)) (derives_letter last) (follows_letter last _)

theorem unmarked_spelled (spells : Spells written word) : Unmarked false written := by
  induction spells with
  | nil => exact unmarked_nil false
  | next earlier last induction =>
      intro plain
      rw [List.head?_append, ne_eq, Option.or_eq_some_iff, not_or]
      exact ⟨induction plain, fun marked => unmarked_letter last plain marked.2⟩

end

end Pattern

/-! ## The program of a word -/

def Tree.ofWord (word : List Char) : Tree :=
  .anchored false (.choice [.sequence (word.map .char)]) false

def Fragment.ofWord (word : List Char) : Fragment := word.map fun c => .char (.exactly c)

section

variable {word : List Char}

theorem group_depth_of_word (word : List Char) : (Tree.ofWord word).groupDepth = 0 := by
  have flat : Tree.groupDepthOfAll (word.map .char) = 0 := by
    induction word with
    | nil => rfl
    | cons c rest induction => rw [List.map_cons, Tree.groupDepthOfAll, induction]; rfl
  rw [Tree.ofWord, Tree.groupDepth, Tree.groupDepth, Tree.group_depth_of_all_singleton, Tree.groupDepth,
    flat]

theorem parse_spelled {limits : Limits} {pattern : List Char} (spells : Pattern.Spells pattern word)
    (nonempty : word ≠ []) : Pattern.parse limits pattern = .ok (.ofWord word) := by
  have body := Pattern.Derives.only (Pattern.derives_spelled spells nonempty)
  have derives := Pattern.Derives.pattern false body (Pattern.unmarked_spelled spells)
  have room : (Tree.ofWord word).groupDepth ≤ limits.maxDepth := by
    rw [group_depth_of_word]
    exact Nat.zero_le _
  have parsed := Pattern.parse_of_within derives room
  simpa [Pattern.marked, Tree.ofWord] using parsed

theorem assembled_of_word (nonempty : word ≠ []) :
    Assembled (.sequence (word.map .char)) (.ofWord word) := by
  induction word with
  | nil => contradiction
  | cons c rest induction =>
      cases rest with
      | nil => exact .factor (.char c)
      | cons next rest => exact .sequence (.char c) (induction (List.cons_ne_nil _ _))

theorem assemble_of_word (nonempty : word ≠ []) :
    (Tree.ofWord word).assemble = .ok (.ofWord word) := by
  have ofFactors := Assembled.alternative (assembled_of_word nonempty)
  have assembled := assemble_of_assembled (.anchored false false ofFactors)
  simpa [Fragment.anchored, Tree.ofWord] using assembled

end

/-! ## Occurrences -/

def Occurs (word : List Char) (text : Array Char) (start : Nat) : Prop :=
  (slice text start (start + word.length : Nat)).toList = word

instance (word : List Char) (text : Array Char) (start : Nat) : Decidable (Occurs word text start) :=
  inferInstanceAs (Decidable (_ = word))

section

variable {word : List Char} {text : Array Char} {start position : Nat}

theorem occurs_iff : Occurs word text start ↔ word <+: text.toList.drop start := by
  rw [Occurs, slice, bound_eq_min, bound_eq_min, Array.toList_extract, List.extract_eq_take_drop,
    List.prefix_iff_eq_take, eq_comm]
  rcases Nat.le_total start text.size with inside | behind
  · have same : (text.toList.drop start).take (min (start + word.length) text.size - start) =
        (text.toList.drop start).take word.length := by
      have size : text.toList.length = text.size := rfl
      rw [List.take_eq_take_iff, List.length_drop, size]
      omega
    rw [Nat.min_eq_left inside, same]
  · have past : text.toList.drop text.size = [] := List.drop_eq_nil_of_le (Nat.le_refl text.size)
    rw [Nat.min_eq_right behind, past, List.drop_eq_nil_of_le behind, List.take_nil, List.take_nil]

theorem inside_of_occurs (nonempty : word ≠ []) (occurs : Occurs word text start) :
    start < text.size := by
  apply Nat.lt_of_not_le
  intro behind
  rw [occurs_iff, List.drop_eq_nil_of_le behind] at occurs
  exact nonempty (List.prefix_nil.mp occurs)

theorem cons_prefix_drop_iff {c : Char} {rest : List Char} :
    c :: rest <+: text.toList.drop position ↔
      text[position]? = some c ∧ rest <+: text.toList.drop (position + 1) := by
  rw [List.drop_eq_getElem?_toList_append, Array.getElem?_toList]
  cases read : text[position]? with
  | none =>
      have past := Array.getElem?_eq_none_iff.mp read
      have behind : text.toList.drop (position + 1) = [] :=
        List.drop_eq_nil_of_le (Nat.le_succ_of_le past)
      simp [behind]
  | some d => simp [List.cons_prefix_cons, eq_comm]

/-! ## Attempts at a word -/

variable {instructions : Array Instruction} {place : Nat}

/-- Where the word stands, its code takes one character in each step. -/
theorem explores_word (placed : Placed instructions place (.ofWord word))
    (finish : instructions[place + word.length]? = some .finish) (opened : List Int)
    (closed : Array Span) (starts : word <+: text.toList.drop position) :
    Explores instructions text ⟨place, position, opened, closed⟩ (word.length + 1)
      (.matched (position + word.length : Nat) closed) := by
  induction word generalizing place position with
  | nil =>
      have here : instructions[place]? = some .finish := finish
      refine .halts ?_
      rw [fate_placed here, Path.meet]
      rfl
  | cons c rest induction =>
      obtain ⟨found, placedRest⟩ := placed_cons placed
      obtain ⟨read, startsRest⟩ := cons_prefix_drop_iff.mp starts
      have fate := fate_char found text position opened closed
      simp only [read, CharTest.accepts, beq_self_eq_true, if_true] at fate
      have next : instructions[place + 1 + rest.length]? = some .finish := by
        rwa [List.length_cons, Nat.add_comm rest.length, ← Nat.add_assoc] at finish
      have explored := induction placedRest next startsRest
      rw [Nat.add_assoc, Nat.add_comm 1] at explored
      exact .goes fate explored

/-- Where another word stands, its code fails no later than at the last character. -/
theorem explores_other (placed : Placed instructions place (.ofWord word)) (opened : List Int)
    (closed : Array Span) (other : ¬ word <+: text.toList.drop position) :
    ∃ steps, steps ≤ word.length ∧
      Explores instructions text ⟨place, position, opened, closed⟩ steps .exhausted := by
  induction word generalizing place position with
  | nil => exact absurd List.nil_prefix other
  | cons c rest induction =>
      obtain ⟨found, placedRest⟩ := placed_cons placed
      have fate := fate_char found text position opened closed
      by_cases read : text[position]? = some c
      · simp only [read, CharTest.accepts, beq_self_eq_true, if_true] at fate
        have otherRest : ¬ rest <+: text.toList.drop (position + 1) :=
          fun startsRest => other (cons_prefix_drop_iff.mpr ⟨read, startsRest⟩)
        obtain ⟨steps, enough, explored⟩ := induction placedRest otherRest
        exact ⟨steps + 1, Nat.succ_le_succ enough, .goes fate explored⟩
      · refine ⟨1, Nat.le_add_left 1 _, .halts (fate.trans ?_)⟩
        split
        · next d isOther =>
            have differs : (d == c) = false := by
              rw [beq_eq_false_iff_ne]
              rintro rfl
              exact read isOther
            rw [CharTest.accepts, differs]
            rfl
        · rfl

variable {program : Program} {source : List Char}

theorem attempt_word {maxSteps : Option Nat} (nonempty : word ≠ [])
    (compiled : (Tree.ofWord word).compile source = .ok program)
    (enough : ∀ budget ∈ maxSteps, word.length + 1 ≤ budget) (text : Array Char) (start : Nat) :
    ∃ steps, attempt maxSteps program.instructions text start =
      if Occurs word text start then .found [⟨start, (start + word.length : Nat)⟩] steps
      else .missed steps := by
  obtain ⟨fragment, assembled, placed, finish⟩ := placed_of_compile compiled
  obtain rfl := Except.ok.inj ((assemble_of_word nonempty).symm.trans assembled)
  rw [Fragment.ofWord, List.length_map] at finish
  split
  · next occurs =>
      have explored := explores_word placed finish [] #[] (occurs_iff.mp occurs)
      exact ⟨_, attempt_of_explores explored enough⟩
  · next absent =>
      obtain ⟨steps, within, explored⟩ := explores_other placed [] #[] (mt occurs_iff.mpr absent)
      refine ⟨steps, attempt_of_explores explored fun budget limited => ?_⟩
      exact Nat.le_trans within (Nat.le_of_succ_le (enough budget limited))

inductive Finds (word : List Char) (text : Array Char) : Except Fault (Option Match) → Prop
  | first {start : Nat} {result : Match} (occurs : Occurs word text start)
      (notBefore : ∀ earlier < start, ¬ Occurs word text earlier)
      (spans : result.spans = #[⟨start, (start + word.length : Nat)⟩]) :
      Finds word text (.ok (some result))
  | nowhere (absent : ∀ start, ¬ Occurs word text start) : Finds word text (.ok none)

theorem search_word {limits : Limits} (nonempty : word ≠ [])
    (compiled : (Tree.ofWord word).compile source = .ok program)
    (enough : ∀ budget ∈ limits.maxSteps, word.length + 1 ≤ budget) (text : Array Char) :
    Finds word text (Engine.search limits program text).run.value := by
  have attempted := attempt_word nonempty compiled enough text
  have missed : ∀ last, Engine.MissesBefore limits program text last →
      ∀ earlier < last, ¬ Occurs word text earlier := by
    intro last misses earlier before occurs
    obtain ⟨steps, found⟩ := attempted earlier
    obtain ⟨own, missed⟩ := Engine.match_at_missed_iff.mp (misses earlier before)
    rw [if_pos occurs, missed] at found
    contradiction
  have leftmost := @Engine.leftmost_search limits program text
  generalize (Engine.search limits program text).run = recorded at leftmost ⊢
  cases leftmost with
  | @found start own inside misses matched =>
      obtain ⟨spans, own, known, rfl⟩ := attempt_of_match_at matched
      obtain ⟨steps, here⟩ := attempted start
      rw [known] at here
      split at here
      · next occurs =>
          obtain ⟨rfl, -⟩ := Outcome.found.inj here
          exact .first occurs (missed start misses) rfl
      · contradiction
  | @cut start steps inside misses raised =>
      obtain ⟨own, here⟩ := attempted start
      rw [Engine.match_at_cut_iff.mp raised] at here
      split at here <;> contradiction
  | absent misses =>
      refine .nowhere fun start occurs => ?_
      exact missed _ misses start (inside_of_occurs nonempty occurs) occurs

end

theorem Engine.compile_pattern_ok {limits : Limits} {pattern : List Char} {tree : Tree}
    {program : Program} (parsed : Pattern.parse limits pattern = .ok tree)
    (compiled : tree.compile pattern = .ok program) :
    (Engine.compilePattern limits pattern).run.value = .ok program := by
  unfold Engine.compilePattern Engine.parse
  rw [parsed]
  show ((Engine.compile tree pattern).run.value : Except Fault Program) = .ok program
  rw [Engine.compile, compiled]
  rfl

/-- A pattern that spells a word compiles under all limits, and its searches are searches for the
word. None is cut off if the limit leaves a step more than the word has characters. -/
theorem spelled_search {pattern word : List Char} (spells : Pattern.Spells pattern word)
    (nonempty : word ≠ []) {limits : Limits}
    (enough : ∀ budget ∈ limits.maxSteps, word.length + 1 ≤ budget) :
    ∃ program, (Engine.compilePattern limits pattern).run.value = .ok program ∧
      ∀ text, Finds word text (Engine.search limits program text).run.value := by
  obtain ⟨program, compiled⟩ := compile_of_assemble (assemble_of_word nonempty) pattern
  refine ⟨program, Engine.compile_pattern_ok (parse_spelled spells nonempty) compiled, ?_⟩
  exact search_word nonempty compiled enough

/-- The least limit for a word of two characters, one of which is written behind a backslash. -/
theorem spelled_search_escaped_dot :
    let limits : Limits := { maxSteps := some 3 }
    let text := #['x', 'a', 'b', 'a', '.', 'a', '.']
    ∃ program result, (Engine.compilePattern limits "a\\.".toList).run.value = .ok program ∧
      (Engine.search limits program text).run.value = .ok (some result) ∧
      result.spans = #[⟨3, 5⟩] := by
  intro limits text
  have spells : Pattern.Spells "a\\.".toList ['a', '.'] :=
    .next (.next .nil (.plain (by decide))) (.escaped '.')
  have enough : ∀ budget ∈ limits.maxSteps, ['a', '.'].length + 1 ≤ budget := by decide
  obtain ⟨program, compiled, searches⟩ := spelled_search spells (List.cons_ne_nil _ _) enough
  have here : Occurs ['a', '.'] text 3 := by decide
  have notBefore : ∀ start < 3, ¬ Occurs ['a', '.'] text start := by decide
  refine ⟨program, ?_⟩
  have finds := searches text
  generalize (Engine.search limits program text).run.value = returned at finds ⊢
  cases finds with
  | @first start result occurs least spans =>
      have upTo : start ≤ 3 := Nat.le_of_not_lt fun behind => least 3 behind here
      have since : 3 ≤ start := Nat.le_of_not_lt fun before => notBefore start before occurs
      obtain rfl := Nat.le_antisymm upTo since
      exact ⟨result, compiled, rfl, spans⟩
  | nowhere absent => exact absurd here (absent 3)

end RegexMachine
