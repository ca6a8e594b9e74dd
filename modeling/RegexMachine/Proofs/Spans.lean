import RegexMachine.Engine
import RegexMachine.Proofs.Reachable

/-!
# Spans are nested

Whatever the program, a path only moves forward in the text, opens groups where it is and closes the
innermost one where it is. The groups that are open at one time therefore began one after the other,
and no span that was closed reaches over the beginning of one of them. So the captures of a match lie
in it, in the order of their ends, and of two captures the later one lies behind the earlier one or
around it. Checkpoints need no word of their own, since what a path hands on holds of all paths.
-/

namespace RegexMachine

open RegexMachine.Machine RegexMachine.Indexing

/-- The span is followed by one that lies behind it or around it. -/
structure Span.Precedes (earlier later : Span) : Prop where
  ends : earlier.stop ≤ later.stop
  apart : earlier.stop ≤ later.start ∨ later.start ≤ earlier.start

namespace Machine

/-- Where the groups of a path began and ended, on the way from `start` to where it is. -/
structure Path.Nested (text : Array Char) (start : Int) (path : Path) : Prop where
  inText : InText text start path
  began : ∀ began ∈ path.opened, start ≤ began ∧ began ≤ path.position
  /-- An inner group did not begin before an outer one. -/
  inward : path.opened.Pairwise (· ≥ ·)
  closed : ∀ span ∈ path.closed.toList,
    start ≤ span.start ∧ span.start ≤ span.stop ∧ span.stop ≤ path.position
  ordered : path.closed.toList.Pairwise Span.Precedes
  /-- No span that was closed reaches over the beginning of a group that is open. -/
  clear : ∀ began ∈ path.opened, ∀ span ∈ path.closed.toList,
    span.stop ≤ began ∨ began ≤ span.start

section

variable {instructions : Array Instruction} {text : Array Char} {start : Int} {path : Path}

theorem nested_initial (text : Array Char) (start : Int) :
    Path.Nested text start { position := start } where
  inText := ⟨Int.le_refl _, Int.le_max_left _ _⟩
  began := by simp
  inward := .nil
  closed := by simp
  ordered := .nil
  clear := by simp

/-- Moving on changes neither the open groups nor the closed ones. -/
theorem nested_moved (nested : path.Nested text start) {pc position : Int}
    (onwards : path.position ≤ position) (inside : position ≤ max start text.size) :
    Path.Nested text start { path with pc, position } where
  inText := ⟨Int.le_trans nested.inText.1 onwards, inside⟩
  began := by
    intro began member
    obtain ⟨after, before⟩ := nested.began began member
    exact ⟨after, Int.le_trans before onwards⟩
  inward := nested.inward
  closed := by
    intro span member
    obtain ⟨after, forward, before⟩ := nested.closed span member
    exact ⟨after, forward, Int.le_trans before onwards⟩
  ordered := nested.ordered
  clear := nested.clear

theorem nested_opened (nested : path.Nested text start) (pc : Int) :
    Path.Nested text start { path with pc, opened := path.position :: path.opened } where
  inText := nested.inText
  began := List.forall_mem_cons.mpr ⟨⟨nested.inText.1, Int.le_refl _⟩, nested.began⟩
  inward := List.pairwise_cons.mpr ⟨fun began member => (nested.began began member).2, nested.inward⟩
  closed := nested.closed
  ordered := nested.ordered
  clear := List.forall_mem_cons.mpr
    ⟨fun span member => .inl (nested.closed span member).2.2, nested.clear⟩

theorem nested_closed (nested : path.Nested text start) {began : Int} {opened : List Int}
    (known : path.opened = began :: opened) (pc : Int) :
    Path.Nested text start
      { path with pc, opened, closed := path.closed.push ⟨began, path.position⟩ } := by
  obtain ⟨inText, ofBegan, inward, closed, ordered, clear⟩ := nested
  rw [known, List.forall_mem_cons] at ofBegan clear
  rw [known, List.pairwise_cons] at inward
  refine ⟨inText, ofBegan.2, inward.2, ?_, ?_, ?_⟩
  · rw [Array.toList_push, List.forall_mem_append, List.forall_mem_singleton]
    exact ⟨closed, ofBegan.1.1, ofBegan.1.2, Int.le_refl _⟩
  · rw [Array.toList_push, List.pairwise_append]
    refine ⟨ordered, List.pairwise_singleton _ _, ?_⟩
    intro span member last isLast
    obtain rfl := List.mem_singleton.mp isLast
    -- the group that ends here was open when the span was closed or began afterwards
    exact ⟨(closed span member).2.2, clear.1 span member⟩
  · intro outer member
    rw [Array.toList_push, List.forall_mem_append, List.forall_mem_singleton]
    exact ⟨clear.2 outer member, .inr (inward.1 outer member)⟩

/-- One step of a path keeps its groups nested. -/
theorem inherited_nested : Path.Inherited instructions text (Path.Nested text start) := by
  intro path next becomes nested
  obtain ⟨-, inside⟩ := inherited_in_text path next becomes nested.inText
  have here := nested.inText.2
  cases becomes with
  | goes fate =>
      obtain ⟨instruction, -, meets⟩ := meets_of_fate fate nofun
      cases meets with
      | taken before read accepted => exact nested_moved nested (Int.le_add_one (Int.le_refl _)) inside
      | jump target => exact nested_moved nested (Int.le_refl _) here
      | anchored holds => exact nested_moved nested (Int.le_refl _) here
      | opened => exact nested_opened nested _
      | closed known => exact nested_closed nested known _
  | first fate =>
      obtain ⟨⟨target, rfl⟩, -⟩ := same_of_forks fate
      exact nested_moved nested (Int.le_refl _) here
  | second fate =>
      obtain ⟨-, target, rfl⟩ := same_of_forks fate
      exact nested_moved nested (Int.le_refl _) here

end

end Machine

/-! ## Texts of spans -/

theorem bound_eq_min (size position : Nat) : bound size position = min position size := by
  rw [bound, if_neg (by omega), Int.toNat_natCast]

theorem bound_nat_cast {size position : Nat} (inside : position ≤ size) :
    bound size position = position :=
  (bound_eq_min size position).trans (Nat.min_eq_left inside)

/-- The text of a span that lies in the text is what stands there, and as long as the span. -/
theorem text_of_inside (result : Match) {span : Span} (after : 0 ≤ span.start)
    (forward : span.start ≤ span.stop) (before : span.stop ≤ result.text.size) :
    ((result.textOf span).length : Int) = span.stop - span.start ∧
      result.textOf span =
        (result.text.toList.drop span.start.toNat).take (span.stop - span.start).toNat := by
  obtain ⟨start, stop⟩ := span
  obtain ⟨start, rfl⟩ := Int.eq_ofNat_of_zero_le after
  obtain ⟨stop, rfl⟩ := Int.eq_ofNat_of_zero_le (Int.le_trans after forward)
  simp only [Int.ofNat_le] at forward before ⊢
  rw [Match.textOf, slice, bound_nat_cast before, bound_nat_cast (Nat.le_trans forward before)]
  constructor
  · rw [Array.length_toList, Array.size_extract, Nat.min_eq_left before]
    omega
  · rw [Array.toList_extract, List.extract_eq_take_drop, Int.toNat_natCast, ← Int.ofNat_sub forward,
      Int.toNat_natCast]

/-- A group is the text of the span at its place; places also count from the end. -/
theorem group_of_place {result : Match} {place : Nat} {span : Span}
    (known : result.spans[place]? = some span) {index : Int}
    (names : index = place ∨ index = place - (result.spans.size : Int)) :
    result.group index = .ok (result.textOf span) := by
  obtain ⟨inside, -⟩ := Array.getElem?_eq_some_iff.mp known
  have resolved : resolve result.spans.size index = some place := by
    unfold resolve
    rcases names with rfl | rfl
    · rw [if_pos (Int.natCast_nonneg place), if_pos (Int.ofNat_lt.mpr inside), Int.toNat_natCast]
    · rw [if_neg (by omega), if_pos (by omega), Int.sub_add_cancel, Int.toNat_natCast]
  rw [Match.group, Match.span, item, item?, resolved, Option.bind_some, known]
  rfl

theorem attempt_of_match_at {limits : Limits} {program : Program} {text : Array Char} {start : Int}
    {result : Match}
    (found : (Engine.matchAt limits program text start).run.value = .ok (some result)) :
    ∃ spans steps, attempt limits.maxSteps program.instructions text start = .found spans steps ∧
      result = ⟨text, spans.toArray, steps⟩ := by
  change (Engine.matchOfAttempt text
    (attempt limits.maxSteps program.instructions text start)).mapError id = _ at found
  cases attempted : attempt limits.maxSteps program.instructions text start with
  | found spans steps =>
      rw [attempted] at found
      exact ⟨spans, steps, rfl, (Option.some.inj (Except.ok.inj found)).symm⟩
  | missed steps =>
      rw [attempted] at found
      cases found
  | offText position =>
      rw [attempted] at found
      contradiction
  | cut steps =>
      rw [attempted] at found
      contradiction

/-- The spans of a match lie in the text behind its start and in the whole match, in the order of
their ends and each behind the earlier ones or around them. Each group is what stands in the text at
the span of its place, and as long as this span. -/
theorem match_at_nested {limits : Limits} {program : Program} {text : Array Char} {start : Int}
    {result : Match}
    (found : (Engine.matchAt limits program text start).run.value = .ok (some result)) :
    ∃ stop captures, result.spans.toList = ⟨start, stop⟩ :: captures ∧
      (start ≤ stop ∧ stop ≤ max start text.size) ∧
      (∀ span ∈ captures, start ≤ span.start ∧ span.start ≤ span.stop ∧ span.stop ≤ stop) ∧
      captures.Pairwise (fun earlier later => earlier.stop ≤ later.stop) ∧
      captures.Pairwise (fun earlier later =>
        earlier.stop ≤ later.start ∨ later.start ≤ earlier.start) ∧
      (0 ≤ start → start ≤ text.size →
        ∀ (place : Nat) (span : Span), result.spans[place]? = some span →
          ∀ index : Int, index = place ∨ index = place - (result.spans.size : Int) →
            ∃ characters, result.group index = .ok characters ∧
              (characters.length : Int) = span.stop - span.start ∧
              characters = (text.toList.drop span.start.toNat).take (span.stop - span.start).toNat) := by
  obtain ⟨spans, steps, attempted, rfl⟩ := attempt_of_match_at found
  obtain ⟨path, nested, rfl⟩ := path_of_found inherited_nested (nested_initial text start) attempted
  refine ⟨path.position, path.closed.toList, rfl, nested.inText, nested.closed,
    nested.ordered.imp Span.Precedes.ends, nested.ordered.imp Span.Precedes.apart, ?_⟩
  intro nonnegative inside place span known index names
  have here := nested.inText.2
  have within : 0 ≤ span.start ∧ span.start ≤ span.stop ∧ span.stop ≤ text.size := by
    rcases List.mem_cons.mp (List.mem_toArray.mp (Array.mem_of_getElem? known)) with rfl | captured
    · exact ⟨nonnegative, nested.inText.1, Int.le_trans here (Int.max_le.mpr ⟨inside, Int.le_refl _⟩)⟩
    · obtain ⟨behind, forward, inMatch⟩ := nested.closed span captured
      exact ⟨by omega, forward, by omega⟩
  exact ⟨_, group_of_place known names, text_of_inside _ within.1 within.2.1 within.2.2⟩

/-- A loop in a group that closes a group in each round, and a group that is never closed. -/
theorem match_at_nested_loop :
    let program : Program :=
      { instructions := #[.openGroup, .openGroup, .openGroup, .char .any, .closeGroup, .fork 2 6,
          .closeGroup, .finish] }
    let result : Match := ⟨#['a', 'b'], #[⟨0, 2⟩, ⟨0, 1⟩, ⟨1, 2⟩, ⟨0, 2⟩], 14⟩
    (Engine.matchAt .standard program #['a', 'b'] 0).run.value = .ok (some result) ∧
      (∃ stop captures, result.spans.toList = ⟨0, stop⟩ :: captures ∧
        captures.Pairwise fun earlier later =>
          earlier.stop ≤ later.start ∨ later.start ≤ earlier.start) ∧
      result.group 1 = .ok ['a'] ∧ result.group (-2) = .ok ['b'] := by
  intro program result
  have found : (Engine.matchAt .standard program #['a', 'b'] 0).run.value = .ok (some result) := rfl
  obtain ⟨stop, captures, spans, -, -, -, apart, texts⟩ := match_at_nested found
  obtain ⟨first, one, -, rfl⟩ := texts (by decide) (by decide) 1 ⟨0, 1⟩ rfl 1 (.inl rfl)
  obtain ⟨second, two, -, rfl⟩ := texts (by decide) (by decide) 2 ⟨1, 2⟩ rfl (-2) (.inr rfl)
  exact ⟨found, ⟨stop, captures, spans, apart⟩, one, two⟩

end RegexMachine
