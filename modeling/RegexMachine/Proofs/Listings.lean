import Mathlib.Data.List.Sort
import RegexMachine.Program.Basic
import RegexMachine.Proofs.Delimited

/-!
# Listings are lossless

A listing puts each instruction on a line of its own. Operands are quoted texts and numbers, neither of
which can hold a line break, so the lines can be taken apart again, one for each instruction. The place
in front of an instruction has been counted and tells nothing new. Behind it the instruction ends by
itself, so that no operand is taken for a part of another instruction.
-/

namespace RegexMachine

open RegexMachine.Text

/-! ## Written tests and instructions -/

theorem members_injective : Function.Injective CharSet.members := by
  rintro ⟨left, leftIncreasing⟩ ⟨right, rightIncreasing⟩ rfl
  rfl

/-- The members of a class are written in the order of their code points, so that only the set counts. -/
theorem of_list_eq_iff (members others : List Char) :
    CharSet.ofList members = CharSet.ofList others ↔ ∀ c, c ∈ members ↔ c ∈ others := by
  constructor
  · intro same c
    rw [← CharSet.mem_of_list, same, CharSet.mem_of_list]
  · intro same
    apply members_injective
    apply (CharSet.ofList members).increasing.eq_of_mem_iff (CharSet.ofList others).increasing
    intro c
    rw [CharSet.mem_of_list, CharSet.mem_of_list]
    exact same c

theorem delimited_test : Delimited CharTest.render := by
  intro left right rest other same
  simp only [CharTest.render.eq_def] at same
  cases left with
  | exactly c =>
      cases right with
      | exactly d =>
          simp only [List.append_assoc] at same
          obtain ⟨chars, behind⟩ := delimited_quoted (List.append_cancel_left same)
          obtain rfl := List.singleton_inj.mp chars
          exact ⟨rfl, List.append_cancel_left behind⟩
      | _ => simp at same
  | any =>
      cases right with
      | any => exact ⟨rfl, List.append_cancel_left same⟩
      | _ => simp at same
  | oneOf negated members =>
      cases right with
      | oneOf negated' others =>
          simp only [List.append_assoc] at same
          obtain ⟨rfl, behindFlag⟩ := delimited_flag (List.append_cancel_left same)
          obtain ⟨sets, behind⟩ := delimited_quoted (List.append_cancel_left behindFlag)
          obtain rfl := members_injective sets
          exact ⟨rfl, List.append_cancel_left behind⟩
      | _ => simp at same

/-- Instructions that are written with the same name, where a place is a part of the name. -/
inductive Instruction.NamedAlike : Instruction → Instruction → Prop
  | char (test other : CharTest) : NamedAlike (.char test) (.char other)
  | jump (target other : Int) : NamedAlike (.jump target) (.jump other)
  | fork (first second first' second' : Int) : NamedAlike (.fork first second) (.fork first' second')
  | named (instruction : Instruction) : NamedAlike instruction instruction

/-- Of two names none begins with the other. -/
theorem named_alike_of_render {left right : Instruction} {rest other : List Char}
    (same : left.render ++ rest = right.render ++ other) : left.NamedAlike right := by
  simp only [Instruction.render.eq_def] at same
  rcases left with test | target | ⟨first, second⟩ | (_ | _) | _ | _ | _ <;>
    rcases right with test' | target' | ⟨first', second'⟩ | (_ | _) | _ | _ | _ <;>
    first
    | constructor
    | simp at same

/-- The name of an instruction tells its kind, and each operand ends in front of what follows it. -/
theorem delimited_instruction : Delimited Instruction.render := by
  intro left right rest other same
  cases named_alike_of_render same with
  | char test test' =>
      simp only [Instruction.render.eq_def, List.append_assoc] at same
      obtain ⟨rfl, behind⟩ := delimited_test (List.append_cancel_left same)
      exact ⟨rfl, List.append_cancel_left behind⟩
  | jump target target' =>
      simp only [Instruction.render.eq_def, List.append_assoc] at same
      obtain ⟨rfl, behind⟩ := eq_of_decimal ')' rfl (List.append_cancel_left same)
      exact ⟨rfl, behind⟩
  | fork first second first' second' =>
      simp only [Instruction.render.eq_def, List.append_assoc] at same
      obtain ⟨rfl, behindFirst⟩ := eq_of_decimal ',' rfl (List.append_cancel_left same)
      obtain ⟨rfl, behind⟩ := eq_of_decimal ')' rfl (List.cons.inj behindFirst).2
      exact ⟨rfl, behind⟩
  | named => exact ⟨rfl, List.append_cancel_left same⟩

/-! ## No line break in a line -/

theorem unbroken_decimal (value : Int) : '\n' ∉ decimal value := by
  intro member
  have numeral := is_numeral_decimal value '\n' member
  contradiction

theorem unbroken_to_digits (value : Nat) : '\n' ∉ Nat.toDigits 10 value :=
  unbroken_decimal (.ofNat value)

theorem unbroken_two_places (place : Nat) : '\n' ∉ twoPlaces place := by
  simp [twoPlaces, unbroken_to_digits]

theorem digit_char_ne_newline : ∀ digit < 16, Nat.digitChar digit ≠ '\n' := by
  decide

theorem unbroken_hex_digits (width value : Nat) : '\n' ∉ hexDigits width value := by
  induction width generalizing value with
  | zero => exact List.not_mem_nil
  | succ width induction =>
      have last := digit_char_ne_newline (value % 16) (Nat.mod_lt _ (by decide))
      simp [hexDigits, induction, last.symm]

theorem unbroken_code_point (c : Char) : '\n' ∉ codePoint c := by
  unfold codePoint
  split
  · simp [unbroken_hex_digits]
  · split
    · simp [unbroken_hex_digits]
    · simp [unbroken_hex_digits]

theorem unbroken_escaped {mark : Char} (isMark : IsMark mark) (c : Char) : '\n' ∉ escaped mark c := by
  unfold escaped
  split
  · next special =>
      have visible : '\n' ≠ c := by
        rcases special with rfl | rfl
        · decide
        · rcases isMark with rfl | rfl <;> decide
      simp [visible]
  · split
    · decide
    · next visible =>
        split
        · decide
        · split
          · decide
          · split
            · simp [Ne.symm visible]
            · exact unbroken_code_point c

theorem unbroken_flag (value : Bool) : '\n' ∉ flag value := by
  cases value <;> simp [flag]

theorem unbroken_quoted (text : List Char) : '\n' ∉ quoted text := by
  have isMark := is_mark_enclosing_mark text
  have visible : '\n' ≠ enclosingMark text := by
    rcases isMark with mark | mark <;> rw [mark] <;> decide
  simp [quoted, visible, unbroken_escaped isMark]

theorem unbroken_test (test : CharTest) : '\n' ∉ test.render := by
  rw [CharTest.render.eq_def]
  cases test with
  | exactly c => simp [unbroken_quoted]
  | any => simp
  | oneOf negated members => simp [unbroken_flag, unbroken_quoted]

theorem unbroken_instruction (instruction : Instruction) : '\n' ∉ instruction.render := by
  rw [Instruction.render.eq_def]
  cases instruction with
  | char test => simp [unbroken_test]
  | jump target => simp [unbroken_decimal]
  | fork first second => simp [unbroken_decimal]
  | anchor place => cases place <;> simp
  | openGroup => simp
  | closeGroup => simp
  | finish => simp

namespace Program

theorem unbroken_line (place : Nat) (instruction : Instruction) : '\n' ∉ line place instruction := by
  simp [line, unbroken_two_places, unbroken_instruction]

theorem line_ne_nil (place : Nat) (instruction : Instruction) : line place instruction ≠ [] := by
  simp [line]

/-- The places of two lines at one place agree, and the rest is the instructions. -/
theorem line_injective (place : Nat) : Function.Injective (line place) := by
  intro left right same
  simp only [line, List.append_assoc] at same
  have written := List.append_cancel_left (List.append_cancel_left same)
  exact (delimited_instruction (congrArg (· ++ []) written)).1

/-! ## Listings -/

theorem length_listing (program : Program) : program.listing.length = program.size := by
  simp [listing, size]

theorem lookup_listing (program : Program) (place : Nat) :
    program.listing[place]? = program.instructions[place]?.map (line place) := by
  simp only [listing, List.getElem?_map, List.getElem?_zipIdx, Array.getElem?_toList, Option.map_map,
    Nat.zero_add]
  rfl

theorem unbroken_listing (program : Program) : ∀ written ∈ program.listing, '\n' ∉ written := by
  intro written member
  obtain ⟨place, found⟩ := List.getElem?_of_mem member
  rw [lookup_listing, Option.map_eq_some_iff] at found
  obtain ⟨instruction, -, rfl⟩ := found
  exact unbroken_line place instruction

theorem instructions_of_listing {left right : Program} (same : left.listing = right.listing) :
    left.instructions = right.instructions := by
  apply Array.ext_getElem?
  intro place
  apply Option.map_injective (line_injective place)
  rw [← lookup_listing, ← lookup_listing, same]

theorem listing_of_instructions {left right : Program}
    (same : left.instructions = right.instructions) : left.listing = right.listing := by
  rw [listing, listing, same]

/-- The lines of a listing; one that is empty has one empty line. -/
theorem split_on_render (program : Program) :
    List.splitOn '\n' program.render = if program.listing = [] then [[]] else program.listing := by
  split
  · next empty =>
      rw [render, empty]
      rfl
  · next some => exact List.splitOn_intercalate '\n' program.unbroken_listing some

theorem nil_not_mem_listing (program : Program) : [] ∉ program.listing := by
  intro member
  obtain ⟨place, found⟩ := List.getElem?_of_mem member
  rw [lookup_listing, Option.map_eq_some_iff] at found
  obtain ⟨instruction, -, empty⟩ := found
  exact line_ne_nil place instruction empty

theorem listing_of_render {left right : Program} (same : left.render = right.render) :
    left.listing = right.listing := by
  have lines := congrArg (List.splitOn '\n') same
  rw [split_on_render, split_on_render] at lines
  split at lines
  · next noneLeft =>
      split at lines
      · next noneRight => rw [noneLeft, noneRight]
      · exact absurd (lines ▸ List.mem_singleton_self []) (nil_not_mem_listing right)
  · split at lines
    · exact absurd (lines ▸ List.mem_singleton_self []) (nil_not_mem_listing left)
    · exact lines

/-- A listing tells the instructions of a program, in which a class counts as the set of its members,
and it has a line for each of them. -/
theorem render_lossless (left right : Program) :
    (left.render = right.render ↔ left.instructions = right.instructions) ∧
      (∀ negated members others,
        (CharTest.oneOf negated (.ofList members)).render =
            (CharTest.oneOf negated (.ofList others)).render ↔
          ∀ c, c ∈ members ↔ c ∈ others) ∧
      (List.splitOn '\n' left.render).length = max left.size 1 := by
  constructor
  · constructor
    · intro same
      exact instructions_of_listing (listing_of_render same)
    · intro same
      rw [render, render, listing_of_instructions same]
  constructor
  · intro negated members others
    rw [← of_list_eq_iff]
    constructor
    · intro same
      have tests := (delimited_test (congrArg (· ++ []) same)).1
      exact (CharTest.oneOf.inj tests).2
    · intro same
      rw [same]
  · have counted := left.length_listing
    rw [split_on_render]
    split
    · next empty =>
        rw [empty] at counted
        rw [← counted]
        rfl
    · next some =>
        have positive := List.length_pos_iff.mpr some
        omega

end Program

end RegexMachine
