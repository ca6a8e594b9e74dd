import RegexMachine.Limits
import RegexMachine.Pattern.Tree

/-!
Reading a pattern from left to right, one character at a time. A scan holds what it has read: for
each open group, the outermost last, the alternatives that are complete and the factors of the one
being read, and a mode that says what the next character may be. The tree is known when the
pattern ends.

The first factor of an alternative is mandatory, so `|`, `)` and `$` stand for themselves there. A
factor takes at most one quantifier. A group may be closed only after a factor, and `$` anchors
only after a factor outside all groups and at the end of the pattern.
-/

namespace RegexMachine.Pattern

/-- What is wrong with a pattern. `found` is `none` where the pattern ended. -/
inductive Cause
  | expected (wanted : Char) (found : Option Char)
  | expectedEnd (found : Char)
  | missingFactor
  | danglingEscape
  | unclosedClass
  | tooDeep (maxDepth : Nat)
deriving DecidableEq, Repr

def Cause.message : Cause → String
  | .expected wanted (some found) =>
      "Syntax Error: expect `" ++ wanted.toString ++ "` but found `" ++ found.toString ++ "`"
  | .expected wanted none =>
      "Syntax Error: expect `" ++ wanted.toString ++ "` but found End-Of-String"
  | .expectedEnd found =>
      "Syntax Error: expect End-Of-String but found `" ++ found.toString ++ "`"
  | .missingFactor => "Syntax Error: expect a character but found End-Of-String"
  | .danglingEscape => "Syntax Error: expect char but found End-Of-String"
  | .unclosedClass => "Syntax Error: unclosed char-class, `]` not found"
  | .tooDeep maxDepth =>
      "Syntax Error: nesting too deep, more than " ++ toString maxDepth ++ " levels of groups"

/-- The part of a group that has been read, newest first. -/
structure Frame where
  alternatives : List Tree := []
  factors : List Tree := []
deriving DecidableEq, Repr, Inhabited

namespace Frame

def addFactor (frame : Frame) (factor : Tree) : Frame :=
  { frame with factors := factor :: frame.factors }

def endAlternative (frame : Frame) : Frame :=
  ⟨.sequence frame.factors.reverse :: frame.alternatives, []⟩

def tree (frame : Frame) : Tree :=
  .choice frame.endAlternative.alternatives.reverse

end Frame

inductive Mode
  /-- Nothing has been read, and a `^` would be the anchor. -/
  | start
  /-- A factor has to follow. -/
  | factor
  /-- An atom is complete, and a quantifier may follow. -/
  | atom (tree : Tree)
  /-- A quantified factor is complete. -/
  | next
  | escape
  /-- A class has been opened, and a `^` would negate it. -/
  | classOpen
  /-- The members of a class so far, newest first. -/
  | classBody (negated : Bool) (members : List Char)
  | classEscape (negated : Bool) (members : List Char)
  | least (body : Tree) (value : Nat)
  | most (body : Tree) (least value : Nat)
  /-- The anchor at the end has been read. -/
  | ended
deriving DecidableEq, Repr, Inhabited

structure Scan where
  front : Bool := false
  outer : List Frame := []
  frame : Frame := {}
  mode : Mode := .start
deriving DecidableEq, Repr, Inhabited

namespace Scan

def opened (scan : Scan) : Nat := scan.outer.length

/-- The value of a decimal digit; only ASCII digits count in a quantifier. -/
def digit? (c : Char) : Option Nat :=
  if c.isDigit then some (c.toNat - '0'.toNat) else none

def complete (scan : Scan) (tree : Tree) : Scan :=
  { scan with frame := scan.frame.addFactor tree, mode := .next }

/-- The first character of a factor. `maxOpen` is how many groups may be open at once, and
`maxDepth` the number that a refusal names. -/
def beginFactor (maxDepth maxOpen : Nat) (scan : Scan) (c : Char) : Except Cause Scan :=
  match c with
  | '(' =>
      if scan.opened < maxOpen then
        .ok { scan with outer := scan.frame :: scan.outer, frame := {}, mode := .factor }
      else
        .error (.tooDeep maxDepth)
  | '[' => .ok { scan with mode := .classOpen }
  | '.' => .ok { scan with mode := .atom .any }
  | '\\' => .ok { scan with mode := .escape }
  | c => .ok { scan with mode := .atom (.char c) }

def afterFactor (maxDepth maxOpen : Nat) (scan : Scan) (c : Char) : Except Cause Scan :=
  match c with
  | '|' => .ok { scan with frame := scan.frame.endAlternative, mode := .factor }
  | ')' =>
      match scan.outer with
      | [] => .error (.expectedEnd ')')
      | frame :: outer =>
          .ok { scan with outer, frame, mode := .atom (.group scan.frame.tree) }
  | '$' =>
      match scan.outer with
      | [] => .ok { scan with mode := .ended }
      | _ :: _ => .error (.expected ')' (some '$'))
  | c => beginFactor maxDepth maxOpen scan c

def inClass (scan : Scan) (negated : Bool) (members : List Char) (c : Char) : Scan :=
  match c with
  | ']' => { scan with mode := .atom (.oneOf negated members.reverse) }
  | '\\' => { scan with mode := .classEscape negated members }
  | c => { scan with mode := .classBody negated (c :: members) }

def step (maxDepth maxOpen : Nat) (scan : Scan) (c : Char) : Except Cause Scan :=
  match scan.mode with
  | .start =>
      match c with
      | '^' => .ok { scan with front := true, mode := .factor }
      | c => beginFactor maxDepth maxOpen scan c
  | .factor => beginFactor maxDepth maxOpen scan c
  | .atom tree =>
      match c with
      | '*' => .ok (scan.complete (.star tree))
      | '+' => .ok (scan.complete (.plus tree))
      | '?' => .ok (scan.complete (.optional tree))
      | '{' => .ok { scan with mode := .least tree 0 }
      | c => afterFactor maxDepth maxOpen (scan.complete tree) c
  | .next => afterFactor maxDepth maxOpen scan c
  | .escape => .ok { scan with mode := .atom (.char c) }
  | .classOpen =>
      match c with
      | '^' => .ok { scan with mode := .classBody true [] }
      | c => .ok (scan.inClass false [] c)
  | .classBody negated members => .ok (scan.inClass negated members c)
  | .classEscape negated members =>
      .ok { scan with mode := .classBody negated (c :: members) }
  | .least body value =>
      match digit? c with
      | some digit => .ok { scan with mode := .least body (10 * value + digit) }
      | none =>
          if c = ',' then .ok { scan with mode := .most body value 0 }
          else .error (.expected ',' (some c))
  | .most body least value =>
      match digit? c with
      | some digit => .ok { scan with mode := .most body least (10 * value + digit) }
      | none =>
          if c = '}' then .ok (scan.complete (.range body least value))
          else .error (.expected '}' (some c))
  | .ended => .error (.expectedEnd '$')

/-- The tree of a scan whose factors are complete. -/
def close (scan : Scan) (back : Bool) : Except Cause Tree :=
  match scan.outer with
  | [] => .ok (.anchored scan.front scan.frame.tree back)
  | _ :: _ => .error (.expected ')' none)

def finish (scan : Scan) : Except Cause Tree :=
  match scan.mode with
  | .start | .factor => .error .missingFactor
  | .atom tree => (scan.complete tree).close false
  | .next => scan.close false
  | .escape | .classEscape _ _ => .error .danglingEscape
  | .classOpen | .classBody _ _ => .error .unclosedClass
  | .least _ _ => .error (.expected ',' none)
  | .most _ _ _ => .error (.expected '}' none)
  | .ended => scan.close true

end Scan

/-- The cause concerns the character at `position`, or the end of the pattern. -/
structure SyntaxError where
  cause : Cause
  position : Nat
deriving DecidableEq, Repr

/-- A reading that stopped after taking `consumed` characters. `opened` groups were not closed, with
the one that broke the limit among them. -/
structure Failure where
  error : SyntaxError
  consumed : Nat
  opened : Nat
deriving DecidableEq, Repr

/-- A character that does not fit is taken, except after the anchor at the end: there the anchor
itself turns out to be in the wrong place. -/
def Failure.atCharacter (scan : Scan) (consumed : Nat) (cause : Cause) : Failure :=
  match scan.mode with
  | .ended => ⟨⟨cause, consumed - 1⟩, consumed, scan.opened⟩
  | _ =>
      match cause with
      | .tooDeep _ => ⟨⟨cause, consumed⟩, consumed + 1, scan.opened + 1⟩
      | _ => ⟨⟨cause, consumed⟩, consumed + 1, scan.opened⟩

namespace Scan

/-- Reads characters in turn. `consumed` counts the characters read before them. -/
def advance (maxDepth maxOpen : Nat) (consumed : Nat) (scan : Scan) :
    List Char → Except Failure Scan
  | [] => .ok scan
  | c :: rest =>
      match scan.step maxDepth maxOpen c with
      | .ok next => next.advance maxDepth maxOpen (consumed + 1) rest
      | .error cause => .error (.atCharacter scan consumed cause)

theorem advance_append (maxDepth maxOpen consumed : Nat) (scan : Scan) (first second : List Char) :
    scan.advance maxDepth maxOpen consumed (first ++ second) =
      (scan.advance maxDepth maxOpen consumed first).bind fun next =>
        next.advance maxDepth maxOpen (consumed + first.length) second := by
  induction first generalizing consumed scan with
  | nil => rfl
  | cons c first induction =>
      simp only [List.cons_append, advance]
      cases scan.step maxDepth maxOpen c with
      | error cause => rfl
      | ok next =>
          simp only [induction, List.length_cons]
          rw [Nat.add_right_comm, Nat.add_assoc]

def read (maxDepth maxOpen : Nat) (consumed : Nat) (scan : Scan) (rest : List Char) :
    Except Failure Tree := do
  let last ← scan.advance maxDepth maxOpen consumed rest
  let consumed := consumed + rest.length
  last.finish.mapError fun cause => ⟨⟨cause, consumed⟩, consumed, last.opened⟩

end Scan

def parse (limits : Limits) (pattern : List Char) : Except SyntaxError Tree :=
  (({} : Scan).read limits.maxDepth limits.maxDepth 0 pattern).mapError Failure.error

end RegexMachine.Pattern
