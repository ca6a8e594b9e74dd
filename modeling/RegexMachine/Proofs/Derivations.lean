import RegexMachine.Proofs.Grammar
import RegexMachine.Proofs.Results

/-!
# Derived texts are read

A scan that waits for what a rule derives takes its text to the end and then holds its tree, wherever
it began and whatever it holds already. It stops early in one case: the tree has more groups in each
other than the limit leaves room for. Which of the two happens is settled by the tree, so the lemma
for each rule is one equation.
-/

namespace RegexMachine.Pattern

/-! ## Runs without positions -/

namespace Scan

/-- Reads characters in turn, as `advance` does, but does not count them. -/
def follow (maxDepth maxOpen : Nat) (scan : Scan) (written : List Char) : Except Cause Scan :=
  written.foldlM (step maxDepth maxOpen) scan

section

variable {maxDepth maxOpen : Nat}

theorem follow_nil (scan : Scan) : scan.follow maxDepth maxOpen [] = .ok scan := rfl

theorem follow_cons (scan : Scan) (c : Char) (written : List Char) :
    scan.follow maxDepth maxOpen (c :: written) =
      scan.step maxDepth maxOpen c >>= fun next => next.follow maxDepth maxOpen written := rfl

theorem follow_append (scan : Scan) (first second : List Char) :
    scan.follow maxDepth maxOpen (first ++ second) =
      scan.follow maxDepth maxOpen first >>= fun next => next.follow maxDepth maxOpen second :=
  List.foldlM_append

theorem follow_of_cons {scan last : Scan} {c : Char} {written : List Char}
    (followed : scan.follow maxDepth maxOpen (c :: written) = .ok last) :
    ∃ next, scan.step maxDepth maxOpen c = .ok next ∧ next.follow maxDepth maxOpen written = .ok last := by
  rw [follow_cons] at followed
  exact ok_of_bind followed

theorem follow_of_append {scan last : Scan} {first second : List Char}
    (followed : scan.follow maxDepth maxOpen (first ++ second) = .ok last) :
    ∃ next, scan.follow maxDepth maxOpen first = .ok next ∧
      next.follow maxDepth maxOpen second = .ok last := by
  rw [follow_append] at followed
  exact ok_of_bind followed

theorem follow_singleton (scan : Scan) (c : Char) :
    scan.follow maxDepth maxOpen [c] = scan.step maxDepth maxOpen c := by
  rw [follow_cons]
  cases scan.step maxDepth maxOpen c <;> rfl

end

end Scan

theorem at_character_cause (scan : Scan) (consumed : Nat) (cause : Cause) :
    (Failure.atCharacter scan consumed cause).error.cause = cause := by
  unfold Failure.atCharacter
  split
  · rfl
  · split
    · rfl
    · rfl

theorem advance_cause (maxDepth maxOpen consumed : Nat) (scan : Scan) (written : List Char) :
    (scan.advance maxDepth maxOpen consumed written).mapError (·.error.cause) =
      scan.follow maxDepth maxOpen written := by
  induction written generalizing scan consumed with
  | nil => rfl
  | cons c written induction =>
      rw [Scan.advance, Scan.follow_cons]
      cases scan.step maxDepth maxOpen c with
      | ok next => exact induction (consumed + 1) next
      | error cause => exact congrArg Except.error (at_character_cause scan consumed cause)

/-- What reading a pattern comes to, apart from the position of an error. -/
theorem parse_cause (limits : Limits) (pattern : List Char) :
    (parse limits pattern).mapError SyntaxError.cause =
      ({} : Scan).follow limits.maxDepth limits.maxDepth pattern >>= Scan.finish := by
  rw [← advance_cause _ _ 0, parse, Scan.read]
  cases ({} : Scan).advance limits.maxDepth limits.maxDepth 0 pattern with
  | error failure => rfl
  | ok last =>
      show ((last.finish.mapError _).mapError _).mapError _ = last.finish
      cases last.finish <;> rfl

theorem parse_ok_iff (limits : Limits) (pattern : List Char) (tree : Tree) :
    parse limits pattern = .ok tree ↔
      ({} : Scan).follow limits.maxDepth limits.maxDepth pattern >>= Scan.finish = .ok tree := by
  rw [← parse_cause, map_error_ok_iff]

theorem follow_of_parse {limits : Limits} {pattern : List Char} {tree : Tree}
    (parsed : parse limits pattern = .ok tree) :
    ∃ last, ({} : Scan).follow limits.maxDepth limits.maxDepth pattern = .ok last ∧
      last.finish = .ok tree :=
  ok_of_bind ((parse_ok_iff limits pattern tree).mp parsed)

theorem parse_error_iff (limits : Limits) (pattern : List Char) (cause : Cause) :
    (∃ position, parse limits pattern = .error ⟨cause, position⟩) ↔
      ({} : Scan).follow limits.maxDepth limits.maxDepth pattern >>= Scan.finish = .error cause := by
  rw [← parse_cause, map_error_error_iff]
  constructor
  · rintro ⟨position, failed⟩
    exact ⟨_, failed, rfl⟩
  · rintro ⟨error, failed, rfl⟩
    exact ⟨error.position, failed⟩

/-! ## The limit of nesting -/

def within {Value : Type} (maxDepth maxOpen depth : Nat) (value : Value) : Except Cause Value :=
  if depth ≤ maxOpen then .ok value else .error (.tooDeep maxDepth)

section

variable {First Second : Type} {maxDepth maxOpen depth further : Nat} {first : First} {second : Second}
  {next : First → Except Cause Second}

theorem within_room (room : depth ≤ maxOpen) : within maxDepth maxOpen depth first = .ok first :=
  if_pos room

theorem within_bind (following : next first = within maxDepth maxOpen further second) :
    within maxDepth maxOpen depth first >>= next =
      within maxDepth maxOpen (max depth further) second := by
  unfold within at following ⊢
  by_cases room : depth ≤ maxOpen
  · simp only [Nat.max_le, room, if_true, true_and]
    exact following
  · rw [if_neg room, if_neg (fun both => room (Nat.max_le.mp both).1)]
    rfl

theorem within_bind_ok (following : next first = .ok second) :
    within maxDepth maxOpen depth first >>= next = within maxDepth maxOpen depth second := by
  rw [← within_room (Nat.zero_le maxOpen)] at following
  rw [within_bind following, Nat.max_zero]

end

/-! ## Scans that hold whole factors -/

namespace Scan

/-- The scan with the factors of the frame read to their end, and nothing behind them. An atom still
waits for its quantifier. -/
def having (scan : Scan) (frame : Frame) : Scan :=
  match frame.factors with
  | [] => { scan with frame, mode := .factor }
  | factor :: earlier =>
      if factor.isAtom then
        { scan with frame := { frame with factors := earlier }, mode := .atom factor }
      else
        { scan with frame, mode := .next }

section

variable {maxDepth maxOpen : Nat} {scan : Scan} {frame : Frame} {alternatives earlier : List Tree}
  {factor : Tree} {c : Char}

theorem having_atom (atom : factor.isAtom = true) :
    scan.having ⟨alternatives, factor :: earlier⟩ =
      { scan with frame := ⟨alternatives, earlier⟩, mode := .atom factor } :=
  if_pos atom

theorem having_quantified (quantified : factor.isAtom = false) :
    scan.having ⟨alternatives, factor :: earlier⟩ =
      { scan with frame := ⟨alternatives, factor :: earlier⟩, mode := .next } :=
  if_neg (Bool.eq_false_iff.mp quantified)

theorem step_atom (scan : Scan) (unquantified : c ∉ ['*', '+', '?', '{']) :
    step maxDepth maxOpen { scan with mode := .atom factor } c =
      afterFactor maxDepth maxOpen (scan.complete factor) c := by
  simp only [step]
  split
  · contradiction
  · contradiction
  · contradiction
  · contradiction
  · rfl

theorem after_factor_begin (begins : c ∉ ['|', ')', '$']) :
    scan.afterFactor maxDepth maxOpen c = scan.beginFactor maxDepth maxOpen c := by
  unfold afterFactor
  split
  · contradiction
  · contradiction
  · contradiction
  · rfl

/-- What a factor begins with does not depend on how the scan came to wait for it. -/
theorem begin_factor_mode (scan : Scan) (mode : Mode) :
    beginFactor maxDepth maxOpen { scan with mode } c = scan.beginFactor maxDepth maxOpen c := by
  unfold beginFactor
  split <;> rfl

theorem step_behind (some : frame.factors ≠ [])
    (unquantified : ∀ factor ∈ frame.factors.head?, factor.isAtom = true → c ∉ ['*', '+', '?', '{']) :
    (scan.having frame).step maxDepth maxOpen c =
      afterFactor maxDepth maxOpen { scan with frame, mode := .next } c := by
  obtain ⟨alternatives, factors⟩ := frame
  cases factors with
  | nil => contradiction
  | cons factor earlier =>
      cases atom : factor.isAtom with
      | true =>
          rw [having_atom atom]
          exact step_atom { scan with frame := ⟨alternatives, earlier⟩ } (unquantified factor rfl atom)
      | false =>
          rw [having_quantified atom]
          rfl

theorem step_having {written : List Char} (follows : Follows frame.factors.head? (c :: written)) :
    (scan.having frame).step maxDepth maxOpen c =
      beginFactor maxDepth maxOpen { scan with frame } c := by
  obtain ⟨alternatives, factors⟩ := frame
  cases factors with
  | nil => exact begin_factor_mode { scan with frame := ⟨alternatives, []⟩ } .factor
  | cons factor earlier =>
      obtain ⟨begins, -⟩ := follows factor rfl c rfl
      rw [step_behind (List.cons_ne_nil _ _) fun factor isHead => (follows factor isHead c rfl).2,
        after_factor_begin begins]
      exact begin_factor_mode { scan with frame := ⟨alternatives, factor :: earlier⟩ } .next

theorem finish_having (some : frame.factors ≠ []) (outermost : scan.outer = []) :
    (scan.having frame).finish = .ok (.anchored scan.front frame.tree false) := by
  obtain ⟨alternatives, factors⟩ := frame
  cases factors with
  | nil => contradiction
  | cons factor earlier =>
      cases atom : factor.isAtom with
      | true =>
          rw [having_atom atom]
          simp [finish, close, complete, Frame.addFactor, outermost]
      | false =>
          rw [having_quantified atom]
          simp [finish, close, outermost]

end

end Scan

/-! ## The text of each rule -/

/-- What becomes of a scan with room that waits for what the rule derives. -/
def Read (maxDepth maxOpen : Nat) : Rule → List Char → Tree → Prop
  | .atom, written, tree => ∃ c rest, written = c :: rest ∧ ∀ scan : Scan, scan.opened ≤ maxOpen →
      scan.beginFactor maxDepth maxOpen c >>= (fun next => next.follow maxDepth maxOpen rest) =
        within maxDepth maxOpen (scan.opened + tree.groupDepth) { scan with mode := .atom tree }
  | .factor, written, tree => ∀ (scan : Scan) (frame : Frame), scan.opened ≤ maxOpen →
      Follows frame.factors.head? written →
      (scan.having frame).follow maxDepth maxOpen written =
        within maxDepth maxOpen (scan.opened + tree.groupDepth) (scan.having (frame.addFactor tree))
  | .alternative, written, tree => ∃ factors, factors ≠ [] ∧ tree = .sequence factors ∧
      ∀ (scan : Scan) (alternatives : List Tree), scan.opened ≤ maxOpen →
        (scan.having ⟨alternatives, []⟩).follow maxDepth maxOpen written =
          within maxDepth maxOpen (scan.opened + tree.groupDepth)
            (scan.having ⟨alternatives, factors.reverse⟩)
  | .body, written, tree => ∃ frame : Frame, frame.factors ≠ [] ∧ tree = frame.tree ∧
      ∀ scan : Scan, scan.opened ≤ maxOpen →
        (scan.having {}).follow maxDepth maxOpen written =
          within maxDepth maxOpen (scan.opened + tree.groupDepth) (scan.having frame)
  | .pattern, written, tree =>
      ({} : Scan).follow maxDepth maxOpen written >>= Scan.finish =
        within maxDepth maxOpen tree.groupDepth tree

section

variable {maxDepth maxOpen : Nat} {written : List Char} {tree : Tree}

theorem is_atom_of_derives (derives : Derives .atom written tree) : tree.isAtom = true := by
  cases derives <;> rfl

/-! ### Atoms -/

theorem read_any : Read maxDepth maxOpen .atom ['.'] .any :=
  ⟨'.', [], rfl, fun _ room => (within_room room).symm⟩

theorem read_escaped (c : Char) : Read maxDepth maxOpen .atom ['\\', c] (.char c) :=
  ⟨'\\', [c], rfl, fun _ room => (within_room room).symm⟩

theorem begin_factor_plain {scan : Scan} {c : Char} (plain : c ∉ ['(', '[', '.', '\\']) :
    scan.beginFactor maxDepth maxOpen c = .ok { scan with mode := .atom (.char c) } := by
  unfold Scan.beginFactor
  split
  · contradiction
  · contradiction
  · contradiction
  · contradiction
  · rfl

theorem read_plain {c : Char} (plain : c ∉ ['(', '[', '.', '\\']) :
    Read maxDepth maxOpen .atom [c] (.char c) := by
  refine ⟨c, [], rfl, fun scan room => ?_⟩
  rw [begin_factor_plain plain]
  exact (within_room room).symm

theorem in_class_plain {scan : Scan} {negated : Bool} {members : List Char} {c : Char}
    (plain : c ∉ [']', '\\']) :
    scan.inClass negated members c = { scan with mode := .classBody negated (c :: members) } := by
  unfold Scan.inClass
  split
  · contradiction
  · contradiction
  · rfl

theorem follow_members {members : List Char} (ofMembers : Members written members) (scan : Scan)
    (negated : Bool) :
    Scan.follow maxDepth maxOpen { scan with mode := .classBody negated [] } written =
      .ok { scan with mode := .classBody negated members.reverse } := by
  induction ofMembers with
  | none => rfl
  | @plain written members c earlier plain induction =>
      rw [Scan.follow_append, induction, List.reverse_concat]
      show Scan.follow maxDepth maxOpen
        { scan with mode := .classBody negated members.reverse } [c] = _
      rw [Scan.follow_singleton]
      exact congrArg Except.ok (in_class_plain plain)
  | @escaped written members earlier c induction =>
      rw [Scan.follow_append, induction, List.reverse_concat]
      rfl

/-- An open class that is not negated is read as one whose mark is behind it. -/
theorem step_class_open {scan : Scan} {c : Char} (unmarked : c ≠ '^') :
    Scan.step maxDepth maxOpen { scan with mode := .classOpen } c =
      Scan.step maxDepth maxOpen { scan with mode := .classBody false [] } c := by
  simp only [Scan.step, Scan.inClass]

theorem follow_class {members : List Char} {negated : Bool} (ofMembers : Members written members)
    (unmarked : Unmarked negated written) (scan : Scan) :
    Scan.follow maxDepth maxOpen { scan with mode := .classOpen } (marked negated written ++ [']']) =
      .ok { scan with mode := .atom (.oneOf negated members) } := by
  have closed : Scan.follow maxDepth maxOpen { scan with mode := .classBody negated [] }
      (written ++ [']']) = .ok { scan with mode := .atom (.oneOf negated members) } := by
    rw [Scan.follow_append, follow_members ofMembers]
    show Except.ok { scan with mode := .atom (.oneOf negated members.reverse.reverse) } = _
    rw [List.reverse_reverse]
  cases negated with
  | true => exact closed
  | false =>
      rw [← closed]
      cases written with
      | nil => rfl
      | cons c rest =>
          have other : c ≠ '^' := fun same => unmarked rfl (congrArg some same)
          exact congrArg (· >>= fun next => next.follow maxDepth maxOpen (rest ++ [']']))
            (step_class_open other)

theorem read_one_of {members : List Char} {negated : Bool} (ofMembers : Members written members)
    (unmarked : Unmarked negated written) :
    Read maxDepth maxOpen .atom ('[' :: marked negated written ++ [']']) (.oneOf negated members) :=
  ⟨'[', marked negated written ++ [']'], rfl, fun scan room =>
    (follow_class ofMembers unmarked scan).trans (within_room room).symm⟩

theorem read_group (ofBody : Read maxDepth maxOpen .body written tree) :
    Read maxDepth maxOpen .atom ('(' :: written ++ [')']) (.group tree) := by
  obtain ⟨frame, some, rfl, reads⟩ := ofBody
  refine ⟨'(', written ++ [')'], rfl, fun scan room => ?_⟩
  -- the bracket itself may meet the limit, before anything of the body is read
  by_cases another : scan.opened < maxOpen
  · let inner : Scan := { scan with outer := scan.frame :: scan.outer }
    have begun : scan.beginFactor maxDepth maxOpen '(' = .ok (inner.having {}) := if_pos another
    have closed : (inner.having frame).step maxDepth maxOpen ')' =
        .ok { scan with mode := .atom (.group frame.tree) } :=
      Scan.step_behind some fun factor isHead atom => by decide
    rw [begun]
    show (inner.having {}).follow maxDepth maxOpen (written ++ [')']) = _
    have depth : scan.opened + frame.tree.group.groupDepth =
        inner.opened + frame.tree.groupDepth := Nat.add_right_comm _ _ 1
    rw [Scan.follow_append, reads inner another, depth]
    apply within_bind_ok
    rw [Scan.follow_singleton, closed]
  · have refused : scan.beginFactor maxDepth maxOpen '(' = .error (.tooDeep maxDepth) :=
      if_neg another
    have tooDeep : ¬ scan.opened + frame.tree.group.groupDepth ≤ maxOpen := by
      rw [Tree.groupDepth]
      omega
    rw [refused, within, if_neg tooDeep]
    rfl

/-! ### Factors -/

/-- An atom in the place of a factor waits for its quantifier. -/
theorem follow_atom (ofAtom : Read maxDepth maxOpen .atom written tree) {scan : Scan} {frame : Frame}
    (room : scan.opened ≤ maxOpen) (follows : Follows frame.factors.head? written) :
    (scan.having frame).follow maxDepth maxOpen written =
      within maxDepth maxOpen (scan.opened + tree.groupDepth)
        { scan with frame, mode := .atom tree } := by
  obtain ⟨c, rest, rfl, reads⟩ := ofAtom
  rw [Scan.follow_cons, Scan.step_having follows]
  exact reads { scan with frame } room

theorem read_single (ofAtom : Read maxDepth maxOpen .atom written tree) (atom : tree.isAtom = true) :
    Read maxDepth maxOpen .factor written tree := by
  intro scan frame room follows
  rw [follow_atom ofAtom room follows]
  exact congrArg _ (Scan.having_atom atom).symm

theorem follows_append {before : Option Tree} {further : List Char} (some : written ≠ [])
    (follows : Follows before (written ++ further)) : Follows before written := by
  obtain ⟨c, rest, rfl⟩ := List.exists_cons_of_ne_nil some
  exact follows

/-- The quantifier behind an atom completes a factor. -/
theorem read_quantified {factor : Tree} {quantifier : List Char}
    (ofAtom : Read maxDepth maxOpen .atom written tree)
    (depth : factor.groupDepth = tree.groupDepth) (quantified : factor.isAtom = false)
    (reads : ∀ scan : Scan, Scan.follow maxDepth maxOpen { scan with mode := .atom tree } quantifier =
      .ok (scan.complete factor)) :
    Read maxDepth maxOpen .factor (written ++ quantifier) factor := by
  intro scan frame room follows
  have some : written ≠ [] := by
    obtain ⟨c, rest, rfl, -⟩ := ofAtom
    exact List.cons_ne_nil c rest
  rw [Scan.follow_append, follow_atom ofAtom room (follows_append some follows), depth]
  apply within_bind_ok
  rw [reads { scan with frame }]
  exact congrArg Except.ok (Scan.having_quantified quantified).symm

theorem digit_is_digit {c : Char} (digit : c.isDigit = true) :
    Scan.digit? c = some (c.toNat - '0'.toNat) := if_pos digit

/-- A mode that counts digits up comes to the value of their run. -/
theorem follow_digits {digits : List Char} (ofDigits : ∀ c ∈ digits, c.isDigit = true)
    {mode : Nat → Mode}
    (counts : ∀ (scan : Scan) (value : Nat) (c : Char), c.isDigit = true →
      Scan.step maxDepth maxOpen { scan with mode := mode value } c =
        .ok { scan with mode := mode (10 * value + (c.toNat - '0'.toNat)) })
    (scan : Scan) (value : Nat) :
    Scan.follow maxDepth maxOpen { scan with mode := mode value } digits =
      .ok { scan with mode := mode (Nat.ofDigitChars 10 digits value) } := by
  induction digits generalizing value with
  | nil => rfl
  | cons c digits induction =>
      rw [List.forall_mem_cons] at ofDigits
      rw [Nat.ofDigitChars_cons, ← induction ofDigits.2, Scan.follow_cons,
        counts scan value c ofDigits.1]
      rfl

theorem step_least (body : Tree) (scan : Scan) (value : Nat) (c : Char) (digit : c.isDigit = true) :
    Scan.step maxDepth maxOpen { scan with mode := .least body value } c =
      .ok { scan with mode := .least body (10 * value + (c.toNat - '0'.toNat)) } := by
  simp only [Scan.step, digit_is_digit digit]

theorem step_most (body : Tree) (lower : Nat) (scan : Scan) (value : Nat) (c : Char)
    (digit : c.isDigit = true) :
    Scan.step maxDepth maxOpen { scan with mode := .most body lower value } c =
      .ok { scan with mode := .most body lower (10 * value + (c.toNat - '0'.toNat)) } := by
  simp only [Scan.step, digit_is_digit digit]

theorem follow_range {least most : List Char} (ofLeast : ∀ c ∈ least, c.isDigit = true)
    (ofMost : ∀ c ∈ most, c.isDigit = true) (scan : Scan) (body : Tree) :
    Scan.follow maxDepth maxOpen { scan with mode := .atom body }
        (['{'] ++ least ++ [','] ++ most ++ ['}']) =
      .ok (scan.complete (.range body (number least) (number most))) := by
  simp only [Scan.follow_append]
  show ((((Scan.follow maxDepth maxOpen { scan with mode := .least body 0 } least) >>=
    fun next => next.follow maxDepth maxOpen [',']) >>=
    fun next => next.follow maxDepth maxOpen most) >>=
    fun next => next.follow maxDepth maxOpen ['}']) = _
  rw [follow_digits ofLeast (step_least body)]
  show ((Scan.follow maxDepth maxOpen { scan with mode := .most body (number least) 0 } most) >>=
    fun next => next.follow maxDepth maxOpen ['}']) = _
  rw [follow_digits ofMost (step_most body (number least))]
  rfl

/-! ### Alternatives, bodies and patterns -/

theorem read_first (ofFactor : Read maxDepth maxOpen .factor written tree) :
    Read maxDepth maxOpen .alternative written (.sequence [tree]) := by
  refine ⟨[tree], List.cons_ne_nil _ _, rfl, fun scan alternatives room => ?_⟩
  have depth : (Tree.sequence [tree]).groupDepth = tree.groupDepth :=
    Tree.group_depth_of_all_singleton tree
  rw [ofFactor scan ⟨alternatives, []⟩ room (follows_none written), depth]
  rfl

theorem read_next {earlier : List Char} {factors : List Tree} {factor : Tree}
    (ofEarlier : Read maxDepth maxOpen .alternative earlier (.sequence factors))
    (ofFactor : Read maxDepth maxOpen .factor written factor)
    (follows : Follows factors.getLast? written) :
    Read maxDepth maxOpen .alternative (earlier ++ written) (.sequence (factors ++ [factor])) := by
  obtain ⟨same, some, equal, reads⟩ := ofEarlier
  obtain rfl := Tree.sequence.inj equal
  refine ⟨factors ++ [factor], List.append_ne_nil_of_left_ne_nil some _, rfl,
    fun scan alternatives room => ?_⟩
  rw [← List.head?_reverse] at follows
  have depth : scan.opened + (Tree.sequence (factors ++ [factor])).groupDepth =
      max (scan.opened + (Tree.sequence factors).groupDepth) (scan.opened + factor.groupDepth) := by
    rw [Tree.groupDepth, Tree.group_depth_of_all_concat, Tree.groupDepth, Nat.add_max_add_left]
  rw [Scan.follow_append, reads scan alternatives room, depth, List.reverse_concat]
  exact within_bind (ofFactor scan ⟨alternatives, factors.reverse⟩ room follows)

theorem read_only (ofAlternative : Read maxDepth maxOpen .alternative written tree) :
    Read maxDepth maxOpen .body written (.choice [tree]) := by
  obtain ⟨factors, some, rfl, reads⟩ := ofAlternative
  refine ⟨⟨[], factors.reverse⟩, mt List.reverse_eq_nil_iff.mp some, ?_, fun scan room => ?_⟩
  · simp [Frame.tree, Frame.endAlternative]
  · have depth : (Tree.choice [.sequence factors]).groupDepth = (Tree.sequence factors).groupDepth :=
      Tree.group_depth_of_all_singleton _
    rw [depth]
    exact reads scan [] room

theorem read_or_else {earlier : List Char} {alternatives : List Tree} {alternative : Tree}
    (ofEarlier : Read maxDepth maxOpen .body earlier (.choice alternatives))
    (ofAlternative : Read maxDepth maxOpen .alternative written alternative) :
    Read maxDepth maxOpen .body (earlier ++ ['|'] ++ written)
      (.choice (alternatives ++ [alternative])) := by
  obtain ⟨frame, some, equal, readsEarlier⟩ := ofEarlier
  obtain ⟨factors, someFactors, rfl, reads⟩ := ofAlternative
  obtain rfl := Tree.choice.inj equal
  refine ⟨⟨frame.endAlternative.alternatives, factors.reverse⟩,
    mt List.reverse_eq_nil_iff.mp someFactors, ?_, fun scan room => ?_⟩
  · simp [Frame.tree, Frame.endAlternative]
  · have ended : (scan.having frame).step maxDepth maxOpen '|' =
        .ok (scan.having frame.endAlternative) :=
      Scan.step_behind some fun factor isHead atom => by decide
    have depth (trees : List Tree) : scan.opened +
        (Tree.choice (trees ++ [.sequence factors])).groupDepth =
          max (scan.opened + (Tree.choice trees).groupDepth)
            (scan.opened + (Tree.sequence factors).groupDepth) := by
      rw [Tree.groupDepth, Tree.group_depth_of_all_concat, Tree.groupDepth, Nat.add_max_add_left]
    rw [List.append_assoc, Scan.follow_append, readsEarlier scan room, depth]
    apply within_bind
    rw [List.singleton_append, Scan.follow_cons, ended]
    exact reads scan frame.endAlternative.alternatives room

/-- A pattern is read as a body that is waited for, behind the anchor if there is one. -/
theorem follow_marked {front : Bool} (some : marked front written ≠ [])
    (unmarked : Unmarked front written) :
    ({} : Scan).follow maxDepth maxOpen (marked front written) =
      (({ front } : Scan).having {}).follow maxDepth maxOpen written := by
  cases front with
  | true => rfl
  | false =>
      cases written with
      | nil => exact absurd rfl some
      | cons c rest =>
          have other : c ≠ '^' := fun same => unmarked rfl (congrArg Option.some same)
          have begun : ({} : Scan).step maxDepth maxOpen c =
              ({} : Scan).beginFactor maxDepth maxOpen c := by
            simp only [Scan.step]
          have same : (({} : Scan).having {}).step maxDepth maxOpen c =
              ({} : Scan).beginFactor maxDepth maxOpen c :=
            Scan.begin_factor_mode {} .factor
          show ({} : Scan).step maxDepth maxOpen c >>= _ = (({} : Scan).having {}).step maxDepth maxOpen c >>= _
          rw [begun, same]

theorem read_pattern {front : Bool} (back : Bool) (some : written ≠ [])
    (ofBody : Read maxDepth maxOpen .body written tree) (unmarked : Unmarked front written) :
    Read maxDepth maxOpen .pattern (marked front written ++ if back then ['$'] else [])
      (.anchored front tree back) := by
  obtain ⟨frame, someFactors, rfl, reads⟩ := ofBody
  have body := reads { front } (Nat.zero_le maxOpen)
  rw [show Scan.opened { front } = 0 from rfl, Nat.zero_add] at body
  have someMarked : marked front written ≠ [] := List.append_ne_nil_of_right_ne_nil _ some
  rw [Read, Scan.follow_append, follow_marked someMarked unmarked, body, bind_assoc]
  apply within_bind_ok
  cases back with
  | false => exact Scan.finish_having someFactors rfl
  | true =>
      have ended : (({ front } : Scan).having frame).step maxDepth maxOpen '$' =
          .ok { front, frame, mode := .ended } :=
        Scan.step_behind someFactors fun factor isHead atom => by decide
      rw [if_pos rfl, Scan.follow_singleton, ended]
      rfl

end

theorem read_of_derives (maxDepth maxOpen : Nat) {rule : Rule} {written : List Char} {tree : Tree}
    (derives : Derives rule written tree) : Read maxDepth maxOpen rule written tree := by
  induction derives with
  | any => exact read_any
  | escaped c => exact read_escaped c
  | plain plain => exact read_plain plain
  | oneOf ofMembers unmarked => exact read_one_of ofMembers unmarked
  | group ofBody reads => exact read_group reads
  | single ofAtom reads => exact read_single reads (is_atom_of_derives ofAtom)
  | star ofBody reads => exact read_quantified reads rfl rfl fun scan => rfl
  | plus ofBody reads => exact read_quantified reads rfl rfl fun scan => rfl
  | optional ofBody reads => exact read_quantified reads rfl rfl fun scan => rfl
  | range ofBody ofLeast ofMost reads =>
      simp only [List.append_assoc]
      exact read_quantified reads rfl rfl fun scan => by
        simpa only [List.append_assoc] using follow_range ofLeast ofMost scan _
  | first ofFactor reads => exact read_first reads
  | next ofEarlier ofFactor follows readsEarlier reads => exact read_next readsEarlier reads follows
  | only ofAlternative reads => exact read_only reads
  | orElse ofEarlier ofAlternative readsEarlier reads => exact read_or_else readsEarlier reads
  | pattern back ofBody unmarked reads =>
      exact read_pattern back (derives_ne_nil ofBody) reads unmarked

theorem parse_of_within {limits : Limits} {pattern : List Char} {tree : Tree}
    (derives : Derives .pattern pattern tree) (room : tree.groupDepth ≤ limits.maxDepth) :
    parse limits pattern = .ok tree := by
  have reads : Read limits.maxDepth limits.maxDepth .pattern pattern tree :=
    read_of_derives _ _ derives
  exact (parse_ok_iff limits pattern tree).mpr (reads.trans (within_room room))

theorem parse_of_deeper {limits : Limits} {pattern : List Char} {tree : Tree}
    (derives : Derives .pattern pattern tree) (deeper : limits.maxDepth < tree.groupDepth) :
    ∃ position, parse limits pattern = .error ⟨.tooDeep limits.maxDepth, position⟩ := by
  have reads : Read limits.maxDepth limits.maxDepth .pattern pattern tree :=
    read_of_derives _ _ derives
  exact (parse_error_iff limits pattern _).mpr (reads.trans (if_neg (Nat.not_le.mpr deeper)))

end RegexMachine.Pattern
