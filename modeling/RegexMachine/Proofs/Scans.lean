import RegexMachine.Proofs.Derivations

/-!
# What a scan has read is derived

At every moment the text behind a scan splits into what stands around the innermost open group, what
stands in it in front of the factor being read, and the beginning of this factor. Each step keeps
this, whatever the limit. At the end of a pattern nothing is pending, and the parts make a derivation.
-/

namespace RegexMachine.Pattern

/-! ## Parts of a scan and their text -/

/-- The factors of the alternative being read, newest first. -/
def FactorsWritten (factors : List Tree) (written : List Char) : Prop :=
  factors = [] ∧ written = [] ∨ Derives .alternative written (.sequence factors.reverse)

/-- Complete alternatives, newest first, with a bar behind each one. -/
def AlternativesWritten (alternatives : List Tree) (written : List Char) : Prop :=
  alternatives = [] ∧ written = [] ∨
    ∃ body, written = body ++ ['|'] ∧ Derives .body body (.choice alternatives.reverse)

def Frame.Written (frame : Frame) (written : List Char) : Prop :=
  ∃ complete current, written = complete ++ current ∧
    AlternativesWritten frame.alternatives complete ∧ FactorsWritten frame.factors current

/-- The groups around the innermost one, up to the bracket that opens it. -/
def OuterWritten : List Frame → List Char → Prop
  | [], written => written = []
  | frame :: outer, written => ∃ around inside, written = around ++ inside ++ ['('] ∧
      OuterWritten outer around ∧ frame.Written inside

/-- What a mode has taken of a factor that follows the one in front of it. The anchor at the end is
taken outside all groups. -/
def Mode.Written (outer : List Frame) (before : Option Tree) : Mode → List Char → Prop
  | .start, _ => False
  | .factor, written => before = none ∧ written = []
  | .atom tree, written => Derives .atom written tree ∧ Follows before written
  | .next, written => (∃ factor, before = some factor ∧ factor.isAtom = false) ∧ written = []
  | .escape, written => written = ['\\']
  | .classOpen, written => written = ['[']
  | .classBody negated members, written => ∃ inner, written = '[' :: marked negated inner ∧
      Members inner members.reverse ∧ Unmarked negated inner ∧ (negated = false → inner ≠ [])
  | .classEscape negated members, written => ∃ inner,
      written = '[' :: marked negated inner ++ ['\\'] ∧
      Members inner members.reverse ∧ Unmarked negated (inner ++ ['\\'])
  | .least body value, written => ∃ atom digits, written = atom ++ ['{'] ++ digits ∧
      Derives .atom atom body ∧ Follows before atom ∧
      (∀ c ∈ digits, c.isDigit = true) ∧ value = number digits
  | .most body lower value, written => ∃ atom low digits,
      written = atom ++ ['{'] ++ low ++ [','] ++ digits ∧
      Derives .atom atom body ∧ Follows before atom ∧
      (∀ c ∈ low, c.isDigit = true) ∧ lower = number low ∧
      (∀ c ∈ digits, c.isDigit = true) ∧ value = number digits
  | .ended, written => outer = [] ∧ before ≠ none ∧ written = ['$']

structure Scan.Written (scan : Scan) (around inside pending : List Char) : Prop where
  outer : OuterWritten scan.outer around
  frame : scan.frame.Written inside
  mode : scan.mode.Written scan.outer scan.frame.factors.head? pending

/-- The scan has read this text behind the place of the front anchor. -/
def Scan.HasRead (scan : Scan) (written : List Char) : Prop :=
  ∃ around inside pending, written = around ++ inside ++ pending ∧ scan.Written around inside pending

section

variable {frame : Frame} {written : List Char}

theorem written_empty : ({} : Frame).Written [] := ⟨[], [], rfl, .inl ⟨rfl, rfl⟩, .inl ⟨rfl, rfl⟩⟩

theorem written_add_factor (ofFrame : frame.Written written) {further : List Char} {factor : Tree}
    (ofFactor : Derives .factor further factor) (follows : Follows frame.factors.head? further) :
    (frame.addFactor factor).Written (written ++ further) := by
  obtain ⟨complete, current, rfl, alternatives, factors⟩ := ofFrame
  refine ⟨complete, current ++ further, List.append_assoc _ _ _, alternatives, .inr ?_⟩
  rw [Frame.addFactor, List.reverse_cons]
  rcases factors with ⟨none, rfl⟩ | earlier
  · rw [none]
    exact .first ofFactor
  · rw [← List.getLast?_reverse] at follows
    exact .next earlier ofFactor follows

theorem written_tree (ofFrame : frame.Written written) (some : frame.factors ≠ []) :
    Derives .body written frame.tree := by
  obtain ⟨complete, current, rfl, alternatives, factors⟩ := ofFrame
  have last : Derives .alternative current (.sequence frame.factors.reverse) :=
    factors.resolve_left fun none => some none.1
  rw [Frame.tree, Frame.endAlternative, List.reverse_cons]
  rcases alternatives with ⟨none, rfl⟩ | ⟨body, rfl, earlier⟩
  · rw [none]
    exact .only last
  · exact .orElse earlier last

theorem written_end_alternative (ofFrame : frame.Written written) (some : frame.factors ≠ []) :
    frame.endAlternative.Written (written ++ ['|']) := by
  have body := written_tree ofFrame some
  exact ⟨written ++ ['|'], [], (List.append_nil _).symm, .inr ⟨written, rfl, body⟩, .inl ⟨rfl, rfl⟩⟩

end

/-- Nothing is said of a factor that begins with a character of no other use. -/
theorem follows_of_plain {c : Char} (plain : c ∉ ['|', ')', '$', '*', '+', '?', '{'])
    (before : Option Tree) (rest : List Char) : Follows before (c :: rest) := by
  intro factor isBefore head isHead
  obtain rfl := Option.some.inj isHead
  constructor
  · intro member
    exact plain (List.mem_append_left ['*', '+', '?', '{'] member)
  · intro atom member
    exact plain (List.mem_append_right ['|', ')', '$'] member)

/-! ## Steps -/

section

variable {maxDepth maxOpen : Nat} {scan next : Scan} {around inside pending : List Char} {c : Char}

theorem has_read_begin (begun : scan.beginFactor maxDepth maxOpen c = .ok next)
    (ofOuter : OuterWritten scan.outer around) (ofFrame : scan.frame.Written inside)
    (follows : Follows scan.frame.factors.head? [c]) :
    next.HasRead (around ++ inside ++ [c]) ∧ next.front = scan.front := by
  unfold Scan.beginFactor at begun
  split at begun
  · split at begun
    · obtain rfl := Except.ok.inj begun
      refine ⟨⟨around ++ inside ++ ['('], [], [], ?_, ?_⟩, rfl⟩
      · rw [List.append_nil, List.append_nil]
      · exact ⟨⟨around, inside, rfl, ofOuter, ofFrame⟩, written_empty, ⟨rfl, rfl⟩⟩
    · contradiction
  · obtain rfl := Except.ok.inj begun
    exact ⟨⟨around, inside, ['['], rfl, ofOuter, ofFrame, rfl⟩, rfl⟩
  · obtain rfl := Except.ok.inj begun
    exact ⟨⟨around, inside, ['.'], rfl, ofOuter, ofFrame, ⟨.any, follows⟩⟩, rfl⟩
  · obtain rfl := Except.ok.inj begun
    exact ⟨⟨around, inside, ['\\'], rfl, ofOuter, ofFrame, rfl⟩, rfl⟩
  · next group bracket dot escape =>
      obtain rfl := Except.ok.inj begun
      have plain : c ∉ ['(', '[', '.', '\\'] := by simp_all
      exact ⟨⟨around, inside, [c], rfl, ofOuter, ofFrame, ⟨.plain plain, follows⟩⟩, rfl⟩

theorem has_read_after (taken : scan.afterFactor maxDepth maxOpen c = .ok next)
    (ofOuter : OuterWritten scan.outer around) (ofFrame : scan.frame.Written inside)
    (some : scan.frame.factors ≠ [])
    (unquantified : ∀ factor ∈ scan.frame.factors.head?, factor.isAtom = true →
      c ∉ ['*', '+', '?', '{']) :
    next.HasRead (around ++ inside ++ [c]) ∧ next.front = scan.front := by
  unfold Scan.afterFactor at taken
  split at taken
  · obtain rfl := Except.ok.inj taken
    refine ⟨⟨around, inside ++ ['|'], [], ?_, ?_⟩, rfl⟩
    · rw [List.append_nil, List.append_assoc]
    · exact ⟨ofOuter, written_end_alternative ofFrame some, ⟨rfl, rfl⟩⟩
  · split at taken
    · contradiction
    · next frame outer nested =>
        obtain rfl := Except.ok.inj taken
        rw [nested] at ofOuter
        -- the text of the group becomes an atom of the frame it was opened in
        obtain ⟨farther, beside, rfl, ofFarther, ofBeside⟩ := ofOuter
        refine ⟨⟨farther, beside, '(' :: inside ++ [')'], by simp, ?_⟩, rfl⟩
        have group : Derives .atom ('(' :: inside ++ [')']) (.group scan.frame.tree) :=
          .group (written_tree ofFrame some)
        exact ⟨ofFarther, ofBeside, ⟨group, follows_of_plain (by decide) _ _⟩⟩
  · split at taken
    · next outermost =>
        obtain rfl := Except.ok.inj taken
        refine ⟨⟨around, inside, ['$'], rfl, ofOuter, ofFrame, ⟨outermost, ?_, rfl⟩⟩, rfl⟩
        exact mt List.head?_eq_none_iff.mp some
    · contradiction
  · next bar bracket dollar =>
      refine has_read_begin taken ofOuter ofFrame ?_
      intro factor isHead head isFirst
      obtain rfl := Option.some.inj isFirst
      exact ⟨by simp_all, unquantified factor isHead⟩

/-- A quantifier completes the atom in front of it. -/
theorem has_read_quantified {atom quantifier : List Char} {factor : Tree}
    (ofOuter : OuterWritten scan.outer around) (ofFrame : scan.frame.Written inside)
    (follows : Follows scan.frame.factors.head? atom) (some : atom ≠ [])
    (ofFactor : Derives .factor (atom ++ quantifier) factor) (quantified : factor.isAtom = false) :
    (scan.complete factor).HasRead (around ++ inside ++ (atom ++ quantifier)) := by
  obtain ⟨first, rest, rfl⟩ := List.exists_cons_of_ne_nil some
  refine ⟨around, inside ++ (first :: rest ++ quantifier), [], ?_, ?_⟩
  · rw [List.append_nil, List.append_assoc]
  · exact ⟨ofOuter, written_add_factor ofFrame ofFactor follows, ⟨⟨factor, rfl, quantified⟩, rfl⟩⟩

theorem has_read_atom {tree : Tree} (mode : scan.mode = .atom tree)
    (ofScan : scan.Written around inside pending) (taken : scan.step maxDepth maxOpen c = .ok next) :
    next.HasRead (around ++ inside ++ (pending ++ [c])) ∧ next.front = scan.front := by
  have ofMode := ofScan.mode
  rw [mode] at ofMode
  obtain ⟨ofAtom, follows⟩ := ofMode
  have complete {quantifier : List Char} {factor : Tree}
      (ofFactor : Derives .factor (pending ++ quantifier) factor) (quantified : factor.isAtom = false) :=
    has_read_quantified ofScan.outer ofScan.frame follows (derives_ne_nil ofAtom) ofFactor quantified
  simp only [Scan.step, mode] at taken
  split at taken
  · obtain rfl := Except.ok.inj taken
    exact ⟨complete (.star ofAtom) rfl, rfl⟩
  · obtain rfl := Except.ok.inj taken
    exact ⟨complete (.plus ofAtom) rfl, rfl⟩
  · obtain rfl := Except.ok.inj taken
    exact ⟨complete (.optional ofAtom) rfl, rfl⟩
  · obtain rfl := Except.ok.inj taken
    refine ⟨⟨around, inside, pending ++ ['{'], rfl, ofScan.outer, ofScan.frame, ?_⟩, rfl⟩
    exact ⟨pending, [], (List.append_nil _).symm, ofAtom, follows, List.forall_mem_nil _, rfl⟩
  · next star plus optional brace =>
      have added := written_add_factor ofScan.frame (.single ofAtom) follows
      have after := has_read_after taken ofScan.outer added (List.cons_ne_nil _ _)
        fun factor isHead atom => by simp_all
      simp only [List.append_assoc] at after ⊢
      exact after

theorem has_read_in_class {negated : Bool} {members inner : List Char}
    (ofOuter : OuterWritten scan.outer around) (ofFrame : scan.frame.Written inside)
    (ofMembers : Members inner members.reverse) (unmarked : Unmarked negated (inner ++ [c])) :
    (scan.inClass negated members c).HasRead
      (around ++ inside ++ ('[' :: marked negated inner ++ [c])) := by
  unfold Scan.inClass
  split
  · have atom : Derives .atom _ _ := .oneOf ofMembers (unmarked_of_append unmarked)
    exact ⟨around, inside, _, rfl, ofOuter, ofFrame, ⟨atom, follows_of_plain (by decide) _ _⟩⟩
  · exact ⟨around, inside, _, rfl, ofOuter, ofFrame, ⟨inner, rfl, ofMembers, unmarked⟩⟩
  · next bracket escape =>
      have further : Members (inner ++ [c]) (c :: members).reverse := by
        rw [List.reverse_cons]
        exact .plain ofMembers (by simp_all)
      refine ⟨around, inside, _, rfl, ofOuter, ofFrame, ⟨inner ++ [c], ?_, further, unmarked, ?_⟩⟩
      · simp [marked]
      · simp

theorem in_class_front (scan : Scan) (negated : Bool) (members : List Char) (c : Char) :
    (scan.inClass negated members c).front = scan.front := by
  unfold Scan.inClass
  split <;> rfl

theorem has_read_class_open (mode : scan.mode = .classOpen)
    (ofScan : scan.Written around inside pending) (taken : scan.step maxDepth maxOpen c = .ok next) :
    next.HasRead (around ++ inside ++ (pending ++ [c])) ∧ next.front = scan.front := by
  obtain ⟨ofOuter, ofFrame, ofMode⟩ := ofScan
  rw [mode] at ofMode
  obtain rfl := ofMode
  simp only [Scan.step, mode] at taken
  split at taken
  · obtain rfl := Except.ok.inj taken
    exact ⟨⟨around, inside, ['[', '^'], rfl, ofOuter, ofFrame,
      ⟨[], rfl, .none, unmarked_nil true, Bool.noConfusion⟩⟩, rfl⟩
  · next unmarked =>
      obtain rfl := Except.ok.inj taken
      have nothing : Members [] ([] : List Char).reverse := .none
      have first : Unmarked false ([] ++ [c]) := fun _ same => unmarked (Option.some.inj same)
      have read := has_read_in_class ofOuter ofFrame nothing first
      exact ⟨read, in_class_front scan false [] c⟩

theorem has_read_class_body {negated : Bool} {members : List Char}
    (mode : scan.mode = .classBody negated members) (ofScan : scan.Written around inside pending)
    (taken : scan.step maxDepth maxOpen c = .ok next) :
    next.HasRead (around ++ inside ++ (pending ++ [c])) ∧ next.front = scan.front := by
  obtain ⟨ofOuter, ofFrame, ofMode⟩ := ofScan
  rw [mode] at ofMode
  obtain ⟨inner, rfl, ofMembers, unmarked, some⟩ := ofMode
  simp only [Scan.step, mode] at taken
  obtain rfl := Except.ok.inj taken
  have still : Unmarked negated (inner ++ [c]) := unmarked_append unmarked some [c]
  exact ⟨has_read_in_class ofOuter ofFrame ofMembers still, in_class_front scan negated members c⟩

theorem has_read_class_escape {negated : Bool} {members : List Char}
    (mode : scan.mode = .classEscape negated members) (ofScan : scan.Written around inside pending)
    (taken : scan.step maxDepth maxOpen c = .ok next) :
    next.HasRead (around ++ inside ++ (pending ++ [c])) ∧ next.front = scan.front := by
  obtain ⟨ofOuter, ofFrame, ofMode⟩ := ofScan
  rw [mode] at ofMode
  obtain ⟨inner, rfl, ofMembers, unmarked⟩ := ofMode
  simp only [Scan.step, mode] at taken
  obtain rfl := Except.ok.inj taken
  have further : Members (inner ++ ['\\', c]) (c :: members).reverse := by
    rw [List.reverse_cons]
    exact .escaped ofMembers c
  have still := unmarked_append unmarked (fun _ => List.concat_ne_nil _ _) [c]
  rw [List.append_assoc] at still
  exact ⟨⟨around, inside, _, rfl, ofOuter, ofFrame,
    ⟨inner ++ ['\\', c], by simp [marked], further, still, by simp⟩⟩, rfl⟩

/-- A run of digits goes on with one digit more. -/
theorem digits_concat {digits : List Char} {digit : Nat}
    (ofDigits : ∀ c ∈ digits, c.isDigit = true) (isDigit : Scan.digit? c = some digit) :
    (∀ other ∈ digits ++ [c], other.isDigit = true) ∧
      10 * number digits + digit = number (digits ++ [c]) := by
  unfold Scan.digit? at isDigit
  split at isDigit
  · next ofDigit =>
      obtain rfl := Option.some.inj isDigit
      constructor
      · exact List.forall_mem_append.mpr ⟨ofDigits, List.forall_mem_singleton.mpr ofDigit⟩
      · simp [number, Nat.ofDigitChars]
  · contradiction

theorem has_read_least {body : Tree} {value : Nat} (mode : scan.mode = .least body value)
    (ofScan : scan.Written around inside pending) (taken : scan.step maxDepth maxOpen c = .ok next) :
    next.HasRead (around ++ inside ++ (pending ++ [c])) ∧ next.front = scan.front := by
  obtain ⟨ofOuter, ofFrame, ofMode⟩ := ofScan
  rw [mode] at ofMode
  obtain ⟨atom, digits, rfl, ofAtom, follows, ofDigits, rfl⟩ := ofMode
  simp only [Scan.step, mode] at taken
  split at taken
  · next digit isDigit =>
      obtain rfl := Except.ok.inj taken
      obtain ⟨still, value⟩ := digits_concat ofDigits isDigit
      exact ⟨⟨around, inside, _, rfl, ofOuter, ofFrame,
        ⟨atom, digits ++ [c], List.append_assoc _ _ _, ofAtom, follows, still, value⟩⟩, rfl⟩
  · split at taken
    · next comma =>
        obtain rfl := Except.ok.inj taken
        subst comma
        exact ⟨⟨around, inside, _, rfl, ofOuter, ofFrame, ⟨atom, digits, [],
          (List.append_nil _).symm, ofAtom, follows, ofDigits, rfl, List.forall_mem_nil _, rfl⟩⟩, rfl⟩
    · contradiction

theorem has_read_most {body : Tree} {lower value : Nat} (mode : scan.mode = .most body lower value)
    (ofScan : scan.Written around inside pending) (taken : scan.step maxDepth maxOpen c = .ok next) :
    next.HasRead (around ++ inside ++ (pending ++ [c])) ∧ next.front = scan.front := by
  obtain ⟨ofOuter, ofFrame, ofMode⟩ := ofScan
  rw [mode] at ofMode
  obtain ⟨atom, low, digits, rfl, ofAtom, follows, ofLow, rfl, ofDigits, rfl⟩ := ofMode
  simp only [Scan.step, mode] at taken
  split at taken
  · next digit isDigit =>
      obtain rfl := Except.ok.inj taken
      obtain ⟨still, value⟩ := digits_concat ofDigits isDigit
      exact ⟨⟨around, inside, _, rfl, ofOuter, ofFrame, ⟨atom, low, digits ++ [c],
        List.append_assoc _ _ _, ofAtom, follows, ofLow, rfl, still, value⟩⟩, rfl⟩
  · split at taken
    · next brace =>
        obtain rfl := Except.ok.inj taken
        subst brace
        have ofFactor : Derives .factor (atom ++ (['{'] ++ low ++ [','] ++ digits ++ ['}']))
            (.range body (number low) (number digits)) := by
          simpa using Derives.range ofAtom ofLow ofDigits
        have complete := has_read_quantified ofOuter ofFrame follows (derives_ne_nil ofAtom) ofFactor rfl
        simp only [List.append_assoc] at complete ⊢
        exact ⟨complete, rfl⟩
    · contradiction

/-- Behind a step the scan has read one character more. -/
theorem has_read_step {written : List Char} (hasRead : scan.HasRead written)
    (taken : scan.step maxDepth maxOpen c = .ok next) :
    next.HasRead (written ++ [c]) ∧ next.front = scan.front := by
  obtain ⟨around, inside, pending, rfl, ofScan⟩ := hasRead
  obtain ⟨ofOuter, ofFrame, ofMode⟩ := id ofScan
  rw [List.append_assoc]
  cases mode : scan.mode with
  | start =>
      rw [mode] at ofMode
      contradiction
  | factor =>
      rw [mode] at ofMode
      obtain ⟨first, rfl⟩ := ofMode
      simp only [Scan.step, mode] at taken
      refine has_read_begin taken ofOuter ofFrame ?_
      rw [first]
      exact follows_none [c]
  | atom tree => exact has_read_atom mode ofScan taken
  | next =>
      rw [mode] at ofMode
      obtain ⟨⟨factor, isHead, quantified⟩, rfl⟩ := ofMode
      simp only [Scan.step, mode] at taken
      refine has_read_after taken ofOuter ofFrame ?_ ?_
      · intro none
        rw [none] at isHead
        contradiction
      · intro other isOther atom
        obtain rfl := Option.some.inj (isHead.symm.trans isOther)
        rw [quantified] at atom
        contradiction
  | escape =>
      rw [mode] at ofMode
      obtain rfl := ofMode
      simp only [Scan.step, mode] at taken
      obtain rfl := Except.ok.inj taken
      have plain := follows_of_plain (c := '\\') (by decide)
      exact ⟨⟨around, inside, ['\\', c], rfl, ofOuter, ofFrame, ⟨.escaped c, plain _ _⟩⟩, rfl⟩
  | classOpen => exact has_read_class_open mode ofScan taken
  | classBody negated members => exact has_read_class_body mode ofScan taken
  | classEscape negated members => exact has_read_class_escape mode ofScan taken
  | least body value => exact has_read_least mode ofScan taken
  | most body lower value => exact has_read_most mode ofScan taken
  | ended =>
      -- the anchor at the end takes nothing more
      simp only [Scan.step, mode] at taken
      contradiction

/-! ## Runs -/

theorem has_read_start (front : Bool) : (({ front } : Scan).having {}).HasRead [] :=
  ⟨[], [], [], rfl, rfl, written_empty, ⟨rfl, rfl⟩⟩

theorem has_read_follow {written further : List Char} (hasRead : scan.HasRead written)
    (followed : scan.follow maxDepth maxOpen further = .ok next) :
    next.HasRead (written ++ further) ∧ next.front = scan.front := by
  induction further generalizing scan written with
  | nil =>
      obtain rfl := Except.ok.inj followed
      rw [List.append_nil]
      exact ⟨hasRead, rfl⟩
  | cons c further induction =>
      obtain ⟨between, stepped, followed⟩ := Scan.follow_of_cons followed
      obtain ⟨nearer, same⟩ := has_read_step hasRead stepped
      rw [List.append_cons, ← same]
      exact induction nearer followed

/-! ## Ends -/

theorem close_ok {back : Bool} {tree : Tree} (closed : scan.close back = .ok tree) :
    scan.outer = [] ∧ tree = .anchored scan.front scan.frame.tree back := by
  unfold Scan.close at closed
  split at closed
  · next outermost => exact ⟨outermost, (Except.ok.inj closed).symm⟩
  · contradiction

theorem derives_close {back : Bool} {tree : Tree} (closed : scan.close back = .ok tree)
    (ofOuter : OuterWritten scan.outer around) (ofFrame : scan.frame.Written inside)
    (some : scan.frame.factors ≠ []) (unmarked : Unmarked scan.front (around ++ inside)) :
    Derives .pattern (marked scan.front (around ++ inside) ++ if back then ['$'] else []) tree := by
  obtain ⟨outermost, rfl⟩ := close_ok closed
  rw [outermost] at ofOuter
  obtain rfl := ofOuter
  exact .pattern back (written_tree ofFrame some) unmarked

theorem derives_of_finish {written : List Char} {tree : Tree} (hasRead : scan.HasRead written)
    (unmarked : Unmarked scan.front written) (finished : scan.finish = .ok tree) :
    Derives .pattern (marked scan.front written) tree := by
  obtain ⟨around, inside, pending, rfl, ofOuter, ofFrame, ofMode⟩ := hasRead
  unfold Scan.finish at finished
  cases mode : scan.mode with
  | atom atom =>
      rw [mode] at ofMode finished
      obtain ⟨ofAtom, follows⟩ := ofMode
      have added := written_add_factor ofFrame (.single ofAtom) follows
      rw [List.append_assoc] at unmarked ⊢
      have derives := derives_close finished ofOuter added (List.cons_ne_nil _ _) unmarked
      rwa [if_neg Bool.false_ne_true, List.append_nil] at derives
  | next =>
      rw [mode] at ofMode finished
      obtain ⟨⟨factor, isHead, -⟩, rfl⟩ := ofMode
      rw [List.append_nil] at unmarked ⊢
      have some : scan.frame.factors ≠ [] := by
        intro none
        rw [none] at isHead
        contradiction
      have derives := derives_close finished ofOuter ofFrame some unmarked
      rwa [if_neg Bool.false_ne_true, List.append_nil] at derives
  | ended =>
      rw [mode] at ofMode finished
      obtain ⟨-, some, rfl⟩ := ofMode
      have derives := derives_close finished ofOuter ofFrame (mt List.head?_eq_none_iff.mpr some)
        (unmarked_of_append unmarked)
      rwa [if_pos rfl, marked, List.append_assoc] at derives
  | _ =>
      rw [mode] at finished
      contradiction

end

/-- A pattern is a body that is waited for, behind the anchor if there is one. -/
theorem marked_cases (pattern : List Char) :
    ∃ front written, pattern = marked front written ∧ Unmarked front written := by
  by_cases mark : pattern.head? = some '^'
  · obtain ⟨rest, rfl⟩ := List.head?_eq_some_iff.mp mark
    exact ⟨true, rest, rfl, unmarked_true rest⟩
  · exact ⟨false, pattern, rfl, fun _ => mark⟩

/-- What a scan from the beginning has read, behind the anchor if there is one. -/
theorem has_read_of_follow {maxDepth maxOpen : Nat} {pattern : List Char} {last : Scan}
    (some : pattern ≠ []) (followed : ({} : Scan).follow maxDepth maxOpen pattern = .ok last) :
    ∃ written, pattern = marked last.front written ∧ Unmarked last.front written ∧
      last.HasRead written := by
  obtain ⟨front, written, rfl, unmarked⟩ := marked_cases pattern
  rw [follow_marked some unmarked] at followed
  obtain ⟨hasRead, same⟩ := has_read_follow (has_read_start front) followed
  obtain rfl : last.front = front := same
  exact ⟨written, rfl, unmarked, hasRead⟩

theorem derives_of_parse {limits : Limits} {pattern : List Char} {tree : Tree}
    (parsed : parse limits pattern = .ok tree) : Derives .pattern pattern tree := by
  obtain ⟨last, followed, finished⟩ := follow_of_parse parsed
  have some : pattern ≠ [] := by
    rintro rfl
    obtain rfl := Except.ok.inj followed
    contradiction
  obtain ⟨written, rfl, unmarked, hasRead⟩ := has_read_of_follow some followed
  exact derives_of_finish hasRead unmarked finished

theorem group_depth_of_parse {limits : Limits} {pattern : List Char} {tree : Tree}
    (parsed : parse limits pattern = .ok tree) : tree.groupDepth ≤ limits.maxDepth := by
  rcases Nat.lt_or_ge limits.maxDepth tree.groupDepth with deeper | room
  · obtain ⟨position, refused⟩ := parse_of_deeper (derives_of_parse parsed) deeper
    rw [parsed] at refused
    contradiction
  · exact room

/-- Reading accepts the patterns of the grammar whose groups are not nested too deeply and answers
with their trees, and a pattern has one tree at most. -/
theorem parse_iff_derives :
    (∀ (limits : Limits) (pattern : List Char) (tree : Tree),
      parse limits pattern = .ok tree ↔
        Derives .pattern pattern tree ∧ tree.groupDepth ≤ limits.maxDepth) ∧
    ∀ (pattern : List Char) (tree other : Tree),
      Derives .pattern pattern tree → Derives .pattern pattern other → tree = other := by
  constructor
  · intro limits pattern tree
    constructor
    · exact fun parsed => ⟨derives_of_parse parsed, group_depth_of_parse parsed⟩
    · exact fun both => parse_of_within both.1 both.2
  · intro pattern tree other derives derivesOther
    -- one limit has room for both trees, and reading under it has one answer
    let limits : Limits :=
      { maxDepth := max tree.groupDepth other.groupDepth + 1, maxDepth_pos := Nat.succ_pos _ }
    have parsed : parse limits pattern = .ok tree :=
      parse_of_within derives (Nat.le_succ_of_le (Nat.le_max_left _ _))
    have parsedOther : parse limits pattern = .ok other :=
      parse_of_within derivesOther (Nat.le_succ_of_le (Nat.le_max_right _ _))
    exact Except.ok.inj (parsed.symm.trans parsedOther)

theorem parse_iff_derives_literals :
    let tree : Tree := .anchored true (.choice [.sequence [.star (.char '$'), .char '*'],
      .sequence [.char ')', .plus (.group (.choice [.sequence [.range (.oneOf true [']']) 0 12]]))]])
      true
    let pattern := "^$**|)([^\\]]\x7b,12\x7d)+$".toList
    Derives .pattern pattern tree ∧
      ∀ other, Derives .pattern pattern other → tree = other := by
  intro tree pattern
  have derives := ((parse_iff_derives.1 .standard pattern tree).mp rfl).1
  exact ⟨derives, fun other => parse_iff_derives.2 pattern tree other derives⟩

end RegexMachine.Pattern
