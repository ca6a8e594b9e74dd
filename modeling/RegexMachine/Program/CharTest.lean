import RegexMachine.Text.Flag
import RegexMachine.Text.Quoted

/-!
Tests of one character. The members of a class are a set: their order and their repetitions in a
pattern do not count, and they are written in the order of their code points.
-/

namespace RegexMachine

/-- A finite set of characters, kept as its members in increasing order. -/
structure CharSet where
  members : List Char
  increasing : members.Pairwise (· < ·)
deriving DecidableEq

namespace CharSet

def insertInto (c : Char) : List Char → List Char
  | [] => [c]
  | head :: rest =>
      if c < head then c :: head :: rest
      else if c = head then head :: rest
      else head :: insertInto c rest

theorem mem_insert_into (c d : Char) (members : List Char) :
    d ∈ insertInto c members ↔ d = c ∨ d ∈ members := by
  induction members with
  | nil => simp [insertInto]
  | cons head rest induction =>
      simp only [insertInto]
      split
      · simp
      · split
        · rename_i equal
          subst equal
          simp
        · simp only [List.mem_cons, induction]
          constructor
          · rintro (h | h | h) <;> simp [h]
          · rintro (h | h | h) <;> simp [h]

theorem pairwise_insert_into (c : Char) (members : List Char)
    (increasing : members.Pairwise (· < ·)) : (insertInto c members).Pairwise (· < ·) := by
  induction members with
  | nil => simp [insertInto]
  | cons head rest induction =>
      rw [List.pairwise_cons] at increasing
      simp only [insertInto]
      split
      · rename_i less
        refine List.pairwise_cons.mpr ⟨?_, List.pairwise_cons.mpr increasing⟩
        intro d member
        rcases List.mem_cons.mp member with rfl | member
        · exact less
        · exact Char.lt_trans less (increasing.1 d member)
      · split
        · exact List.pairwise_cons.mpr increasing
        · rename_i not_less not_equal
          refine List.pairwise_cons.mpr ⟨?_, induction increasing.2⟩
          intro d member
          rcases (mem_insert_into c d rest).mp member with rfl | member
          · exact Std.lt_of_le_of_ne (Char.not_lt.mp not_less) (Ne.symm not_equal)
          · exact increasing.1 d member

def empty : CharSet := ⟨[], List.Pairwise.nil⟩

def insert (c : Char) (set : CharSet) : CharSet :=
  ⟨insertInto c set.members, pairwise_insert_into c set.members set.increasing⟩

def ofList (chars : List Char) : CharSet := chars.foldr insert empty

def contains (set : CharSet) (c : Char) : Bool := set.members.contains c

theorem mem_of_list (c : Char) (chars : List Char) :
    c ∈ (ofList chars).members ↔ c ∈ chars := by
  induction chars with
  | nil => simp [ofList, empty]
  | cons head rest induction =>
      have unfolded : (ofList (head :: rest)).members =
          insertInto head (ofList rest).members := rfl
      rw [unfolded, mem_insert_into, induction, List.mem_cons]

theorem contains_of_list (c : Char) (chars : List Char) :
    (ofList chars).contains c = chars.contains c := by
  rw [Bool.eq_iff_iff]
  simp [contains, mem_of_list]

end CharSet

inductive CharTest
  | exactly (c : Char)
  | any
  | oneOf (negated : Bool) (members : CharSet)
deriving DecidableEq

namespace CharTest

open RegexMachine.Text

def accepts : CharTest → Char → Bool
  | exactly wanted, c => c == wanted
  | any, _ => true
  | oneOf negated members, c => members.contains c != negated

def render : CharTest → List Char
  | exactly c => "Literal(".toList ++ quoted [c] ++ ")".toList
  | any => "Any".toList
  | oneOf negated members =>
      "CharClass(".toList ++ flag negated ++ ", ".toList ++ quoted members.members ++ ")".toList

end CharTest

end RegexMachine
