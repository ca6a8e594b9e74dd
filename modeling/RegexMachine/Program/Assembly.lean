import RegexMachine.Program.Basic

/-!
From trees to programs. Each node becomes a fragment, a list of instructions whose targets count
from the instruction itself, so that fragments may be put side by side as they are. A fragment is
entered at its beginning and left behind its end. The program comes about by adding to every
target the place of its instruction.

A range is written out: its mandatory copies, then its optional ones. A range without copies is the
empty fragment, and nothing below it is looked at.
-/

namespace RegexMachine

abbrev Fragment := List Instruction

namespace Fragment

def orElse (first second : Fragment) : Fragment :=
  .fork 1 (2 + first.length) :: (first ++ .jump (1 + second.length) :: second)

def optional (body : Fragment) : Fragment :=
  .fork 1 (1 + body.length) :: body

def star (body : Fragment) : Fragment :=
  .fork 1 (2 + body.length) :: (body ++ [.jump (-(1 + body.length))])

def plus (body : Fragment) : Fragment :=
  body ++ [.fork (-body.length) 1]

def group (body : Fragment) : Fragment :=
  .openGroup :: (body ++ [.closeGroup])

/-- `least` mandatory copies, none if it is negative, and then optional ones up to `most`. -/
def range (body : Fragment) (least most : Int) : Fragment :=
  (List.replicate least.toNat body).flatten ++
    (List.replicate (most - least).toNat (optional body)).flatten

def anchored (front : Bool) (body : Fragment) (back : Bool) : Fragment :=
  (if front then [.anchor .front] else []) ++ body ++ (if back then [.anchor .back] else [])

/-- Turns distances into places, for a fragment that begins at place zero. -/
def resolve (fragment : Fragment) : List Instruction :=
  fragment.mapIdx fun place instruction => instruction.relocate place

theorem length_or_else (first second : Fragment) :
    (orElse first second).length = 1 + first.length + 1 + second.length := by
  simp only [orElse, List.length_cons, List.length_append]
  omega

theorem length_optional (body : Fragment) : (optional body).length = 1 + body.length :=
  Nat.add_comm _ _

theorem length_star (body : Fragment) : (star body).length = 1 + body.length + 1 := by
  simp only [star, List.length_cons, List.length_append, List.length_nil]
  omega

theorem length_plus (body : Fragment) : (plus body).length = body.length + 1 :=
  List.length_append

theorem length_group (body : Fragment) : (group body).length = 1 + body.length + 1 := by
  simp only [group, List.length_cons, List.length_append, List.length_nil]
  omega

theorem length_resolve (fragment : Fragment) : (resolve fragment).length = fragment.length :=
  List.length_mapIdx

end Fragment

namespace Tree

mutual

/-- The fragment of a tree, or what is wrong with its first faulty node. -/
def assemble : Tree → Except CompileError Fragment
  | anchored front body back => do
      let body ← body.assemble
      return .anchored front body back
  | choice [] => throw .noAlternatives
  | choice (first :: others) => do
      let first ← first.assemble
      assembleOthers first others
  | sequence [] => throw .noFactors
  | sequence (first :: others) => do
      let first ← first.assemble
      let others ← assembleAll others
      return first ++ others
  | group body => do
      let body ← body.assemble
      return .group body
  | star body => do
      let body ← body.assemble
      return .star body
  | plus body => do
      let body ← body.assemble
      return .plus body
  | optional body => do
      let body ← body.assemble
      return .optional body
  | range body least most =>
      if most < least then throw (.reversedRange least most)
      else if most ≤ 0 ∧ least = most then return []
      else do
        let body ← body.assemble
        return .range body least most
  | any => return [.char .any]
  | oneOf negated members => return [.char (.oneOf negated (.ofList members))]
  | char c => return [.char (.exactly c)]
  | foreign written below => throw (.unknownNode (foreign written below))

def assembleAll : List Tree → Except CompileError Fragment
  | [] => return []
  | factor :: factors => do
      let factor ← factor.assemble
      let factors ← assembleAll factors
      return factor ++ factors

/-- Adds alternatives to those in `earlier`, which come first. -/
def assembleOthers (earlier : Fragment) : List Tree → Except CompileError Fragment
  | [] => return earlier
  | alternative :: alternatives => do
      let alternative ← alternative.assemble
      assembleOthers (earlier.orElse alternative) alternatives

end

def compile (tree : Tree) (source : List Char := []) : Except CompileError Program := do
  let fragment ← tree.assemble
  let program : Program :=
    { instructions := (Fragment.resolve (fragment ++ [.finish])).toArray
      groups := tree.groupCount
      source }
  program.validate
  return program

end Tree

end RegexMachine
