import RegexMachine.Proofs.Derivations

/-!
# Where readings stop

A step does the same under every limit of nesting, except that a bracket opens a group if the limit has
room for one more. From this one inversion follow the runs of scans under two limits and the number of
groups that a run leaves open. A reading takes characters as long as they fit: it stops at the end of the
text, with or without a tree, or at the first character that does not fit.
-/

namespace RegexMachine.Pattern

/-! ## Steps under all limits -/

/-- What a character comes to as a function of the limit, for a scan with `opened` open groups. -/
inductive Decides (opened : Nat) : Char → (Nat → Nat → Except Cause Scan) → Prop
  | goes {c next} (fewer : next.opened ≤ opened)
      (closing : opened ≤ next.opened + if c == ')' then 1 else 0) :
      Decides opened c fun _ _ => .ok next
  | refuses {c cause} (other : ∀ maxDepth, cause ≠ .tooDeep maxDepth) :
      Decides opened c fun _ _ => .error cause
  | opens {next} (more : next.opened = opened + 1) (begun : next.mode = .factor) :
      Decides opened '(' fun maxDepth maxOpen =>
        if opened < maxOpen then .ok next else .error (.tooDeep maxDepth)

theorem decides_kept {c : Char} {next : Scan} {opened : Nat} (same : next.opened = opened) :
    Decides opened c fun _ _ => .ok next :=
  .goes (Nat.le_of_eq same) (same ▸ Nat.le_add_right _ _)

theorem decides_begin_factor (scan : Scan) (c : Char) :
    Decides scan.opened c fun maxDepth maxOpen => scan.beginFactor maxDepth maxOpen c := by
  unfold Scan.beginFactor
  split
  · exact .opens rfl rfl
  · exact decides_kept rfl
  · exact decides_kept rfl
  · exact decides_kept rfl
  · exact decides_kept rfl

theorem decides_after_factor (scan : Scan) (c : Char) :
    Decides scan.opened c fun maxDepth maxOpen => scan.afterFactor maxDepth maxOpen c := by
  unfold Scan.afterFactor
  split
  · exact decides_kept rfl
  · split
    · exact .refuses nofun
    · next frame outer nested =>
        have opened : scan.opened = outer.length + 1 := by rw [Scan.opened, nested, List.length_cons]
        exact .goes (opened ▸ Nat.le_succ _) (Nat.le_of_eq opened)
  · split
    · next outermost => exact decides_kept rfl
    · exact .refuses nofun
  · exact decides_begin_factor scan c

theorem in_class_opened (scan : Scan) (negated : Bool) (members : List Char) (c : Char) :
    (scan.inClass negated members c).opened = scan.opened := by
  unfold Scan.inClass
  split <;> rfl

theorem decides_step (scan : Scan) (c : Char) :
    Decides scan.opened c fun maxDepth maxOpen => scan.step maxDepth maxOpen c := by
  unfold Scan.step
  cases scan.mode with
  | start =>
      dsimp only
      split
      · exact decides_kept rfl
      · exact decides_begin_factor scan c
  | factor => exact decides_begin_factor scan c
  | atom tree =>
      dsimp only
      split
      · exact decides_kept rfl
      · exact decides_kept rfl
      · exact decides_kept rfl
      · exact decides_kept rfl
      · exact decides_after_factor (scan.complete tree) c
  | next => exact decides_after_factor scan c
  | escape => exact decides_kept rfl
  | classOpen =>
      dsimp only
      split
      · exact decides_kept rfl
      · exact decides_kept (in_class_opened scan _ _ _)
  | classBody negated members => exact decides_kept (in_class_opened scan _ _ _)
  | classEscape negated members => exact decides_kept rfl
  | least body value =>
      dsimp only
      split
      · exact decides_kept rfl
      · split
        · exact decides_kept rfl
        · exact .refuses nofun
  | most body lower value =>
      dsimp only
      split
      · exact decides_kept rfl
      · split
        · exact decides_kept rfl
        · exact .refuses nofun
  | ended => exact .refuses nofun

/-- A step read off what its character decides. -/
theorem step_decided (scan : Scan) (c : Char) :
    ∃ decision, Decides scan.opened c decision ∧
      ∀ maxDepth maxOpen, scan.step maxDepth maxOpen c = decision maxDepth maxOpen :=
  ⟨_, decides_step scan c, fun _ _ => rfl⟩

section

variable {maxDepth maxOpen otherDepth moreOpen : Nat} {scan next : Scan} {c : Char}

theorem step_more (more : maxOpen ≤ moreOpen) (stepped : scan.step maxDepth maxOpen c = .ok next) :
    scan.step otherDepth moreOpen c = .ok next := by
  obtain ⟨decision, decides, same⟩ := step_decided scan c
  rw [same] at stepped ⊢
  cases decides with
  | goes fewer closing => exact stepped
  | refuses other => contradiction
  | opens further begun =>
      dsimp only at stepped ⊢
      split at stepped
      · next room =>
          rw [if_pos (Nat.lt_of_lt_of_le room more)]
          exact stepped
      · contradiction

/-- A refusal that is not the limit's is a refusal under every limit. -/
theorem step_refused {cause : Cause} (other : ∀ limit, cause ≠ .tooDeep limit)
    (stepped : scan.step maxDepth maxOpen c = .error cause) :
    scan.step otherDepth moreOpen c = .error cause := by
  obtain ⟨decision, decides, same⟩ := step_decided scan c
  rw [same] at stepped ⊢
  cases decides with
  | goes fewer closing => contradiction
  | refuses unlimited => exact stepped
  | opens further begun =>
      dsimp only at stepped
      split at stepped
      · contradiction
      · exact absurd (Except.error.inj stepped).symm (other maxDepth)

/-- The limit refuses a bracket, which opens a group where there is room for one more. -/
theorem step_too_deep {limit : Nat} (stepped : scan.step maxDepth maxOpen c = .error (.tooDeep limit)) :
    c = '(' ∧ limit = maxDepth ∧ maxOpen ≤ scan.opened ∧ scan.mode ≠ .ended ∧
      ∃ next : Scan, next.opened = scan.opened + 1 ∧ next.mode = .factor ∧
        ∀ otherDepth moreOpen, scan.opened < moreOpen →
          scan.step otherDepth moreOpen '(' = .ok next := by
  obtain ⟨decision, decides, same⟩ := step_decided scan c
  rw [same] at stepped
  cases decides with
  | goes fewer closing => contradiction
  | refuses other => exact absurd (Except.error.inj stepped) (other limit)
  | @opens next further begun =>
      dsimp only at stepped same
      have opens : ∀ otherDepth moreOpen, scan.opened < moreOpen →
          scan.step otherDepth moreOpen '(' = .ok next := by
        intro otherDepth moreOpen room
        rw [same, if_pos room]
      split at stepped
      · contradiction
      · next full =>
          refine ⟨rfl, (Cause.tooDeep.inj (Except.error.inj stepped)).symm, Nat.not_lt.mp full, ?_,
            next, further, begun, opens⟩
          intro ended
          have refused := opens 0 (scan.opened + 1) (Nat.lt_succ_self _)
          simp only [Scan.step, ended] at refused
          contradiction

theorem opened_of_step (stepped : scan.step maxDepth maxOpen c = .ok next) :
    (next.opened ≤ max scan.opened maxOpen) ∧
      scan.opened ≤ next.opened + (if c == ')' then 1 else 0) ∧
      next.opened ≤ scan.opened + (if c == '(' then 1 else 0) := by
  obtain ⟨decision, decides, same⟩ := step_decided scan c
  rw [same] at stepped
  cases decides with
  | goes fewer closing =>
      obtain rfl := Except.ok.inj stepped
      exact ⟨Nat.le_trans fewer (Nat.le_max_left _ _), closing, Nat.le_add_right_of_le fewer⟩
  | refuses other => contradiction
  | opens further begun =>
      dsimp only at stepped
      split at stepped
      · next room =>
          obtain rfl := Except.ok.inj stepped
          rw [further]
          exact ⟨Nat.le_trans room (Nat.le_max_right _ _), by omega, Nat.le_refl _⟩
      · contradiction

end

/-! ## Runs -/

section

variable {maxDepth maxOpen otherDepth moreOpen : Nat} {scan last : Scan} {written : List Char}

theorem follow_more (more : maxOpen ≤ moreOpen)
    (followed : scan.follow maxDepth maxOpen written = .ok last) :
    scan.follow otherDepth moreOpen written = .ok last := by
  induction written generalizing scan with
  | nil => exact followed
  | cons c written induction =>
      obtain ⟨next, stepped, followed⟩ := Scan.follow_of_cons followed
      rw [Scan.follow_cons, step_more more stepped]
      exact induction followed

theorem opened_of_follow (followed : scan.follow maxDepth maxOpen written = .ok last) :
    (last.opened ≤ max scan.opened maxOpen) ∧
      scan.opened ≤ last.opened + written.count ')' ∧
      last.opened ≤ scan.opened + written.count '(' := by
  induction written generalizing scan with
  | nil =>
      obtain rfl := Except.ok.inj followed
      exact ⟨Nat.le_max_left _ _, Nat.le_refl _, Nat.le_refl _⟩
  | cons c written induction =>
      obtain ⟨next, stepped, followed⟩ := Scan.follow_of_cons followed
      have first := opened_of_step stepped
      have rest := induction followed
      rw [List.count_cons, List.count_cons]
      omega

end

/-! ## Ends -/

/-- How a reading ends that has `consumed` characters behind it: at the end of the text, or at the first
character that does not fit. -/
inductive Scan.Ends (maxDepth maxOpen consumed : Nat) (scan : Scan) :
    List Char → Except Failure Tree → Prop
  | read {rest last tree} (followed : scan.follow maxDepth maxOpen rest = .ok last)
      (finished : last.finish = .ok tree) : Ends maxDepth maxOpen consumed scan rest (.ok tree)
  | atEnd {rest last cause} (followed : scan.follow maxDepth maxOpen rest = .ok last)
      (unfinished : last.finish = .error cause) :
      Ends maxDepth maxOpen consumed scan rest
        (.error ⟨⟨cause, consumed + rest.length⟩, consumed + rest.length, last.opened⟩)
  | atCharacter {first further reached c cause}
      (followed : scan.follow maxDepth maxOpen first = .ok reached)
      (refused : reached.step maxDepth maxOpen c = .error cause) :
      Ends maxDepth maxOpen consumed scan (first ++ c :: further)
        (.error (.atCharacter reached (consumed + first.length) cause))

section

variable {maxDepth maxOpen consumed : Nat} {scan last : Scan} {rest : List Char}

theorem advance_ok_iff : scan.advance maxDepth maxOpen consumed rest = .ok last ↔
    scan.follow maxDepth maxOpen rest = .ok last := by
  rw [← advance_cause maxDepth maxOpen consumed, map_error_ok_iff]

/-- A failed run has followed the text up to the character that does not fit. -/
theorem advance_refused {failure : Failure}
    (failed : scan.advance maxDepth maxOpen consumed rest = .error failure) :
    ∃ first further reached c cause, rest = first ++ c :: further ∧
      scan.follow maxDepth maxOpen first = .ok reached ∧
      reached.step maxDepth maxOpen c = .error cause ∧
      failure = .atCharacter reached (consumed + first.length) cause := by
  induction rest generalizing scan consumed with
  | nil => contradiction
  | cons c rest induction =>
      rw [Scan.advance] at failed
      cases stepped : scan.step maxDepth maxOpen c with
      | error cause =>
          rw [stepped] at failed
          exact ⟨[], rest, scan, c, cause, rfl, rfl, stepped, (Except.error.inj failed).symm⟩
      | ok next =>
          rw [stepped] at failed
          obtain ⟨first, further, reached, other, cause, rfl, followed, refused, same⟩ :=
            induction failed
          refine ⟨c :: first, further, reached, other, cause, rfl, ?_, refused, ?_⟩
          · rw [Scan.follow_cons, stepped]
            exact followed
          · rw [same, List.length_cons, Nat.add_assoc, Nat.add_comm 1]

theorem ends_read (maxDepth maxOpen consumed : Nat) (scan : Scan) (rest : List Char) :
    scan.Ends maxDepth maxOpen consumed rest (scan.read maxDepth maxOpen consumed rest) := by
  unfold Scan.read
  cases advanced : scan.advance maxDepth maxOpen consumed rest with
  | error failure =>
      obtain ⟨first, further, reached, c, cause, rfl, followed, refused, rfl⟩ :=
        advance_refused advanced
      exact .atCharacter followed refused
  | ok last =>
      have followed := advance_ok_iff.mp advanced
      show scan.Ends maxDepth maxOpen consumed rest (last.finish.mapError _)
      cases finished : last.finish with
      | ok tree => exact .read followed finished
      | error cause => exact .atEnd followed finished

theorem read_append {first : List Char} (followed : scan.follow maxDepth maxOpen first = .ok last) :
    scan.read maxDepth maxOpen consumed (first ++ rest) =
      last.read maxDepth maxOpen (consumed + first.length) rest := by
  have advanced : scan.advance maxDepth maxOpen consumed first = .ok last :=
    advance_ok_iff.mpr followed
  simp only [Scan.read, Scan.advance_append, advanced, List.length_append, Nat.add_assoc]
  rfl

/-- A reading ends in one way. -/
theorem read_of_ends {result : Except Failure Tree}
    (ends : scan.Ends maxDepth maxOpen consumed rest result) :
    scan.read maxDepth maxOpen consumed rest = result := by
  cases ends with
  | @read _ last _ followed finished =>
      have advanced : scan.advance maxDepth maxOpen consumed rest = .ok last :=
        advance_ok_iff.mpr followed
      simp only [Scan.read, advanced, bind, Except.bind, finished]
      rfl
  | @atEnd _ last _ followed unfinished =>
      have advanced : scan.advance maxDepth maxOpen consumed rest = .ok last :=
        advance_ok_iff.mpr followed
      simp only [Scan.read, advanced, bind, Except.bind, unfinished]
      rfl
  | atCharacter followed refused =>
      rw [read_append followed, Scan.read, Scan.advance, refused]
      rfl

end

/-! ## Failures -/

section

variable {consumed : Nat} {scan : Scan} {cause : Cause}

theorem at_character_ended (ended : scan.mode = .ended) :
    Failure.atCharacter scan consumed cause = ⟨⟨cause, consumed - 1⟩, consumed, scan.opened⟩ := by
  simp only [Failure.atCharacter, ended]

theorem at_character_too_deep {limit : Nat} (continues : scan.mode ≠ .ended) :
    Failure.atCharacter scan consumed (.tooDeep limit) =
      ⟨⟨.tooDeep limit, consumed⟩, consumed + 1, scan.opened + 1⟩ := by
  unfold Failure.atCharacter
  split
  · contradiction
  · rfl

theorem at_character_other (continues : scan.mode ≠ .ended)
    (other : ∀ limit, cause ≠ .tooDeep limit) :
    Failure.atCharacter scan consumed cause = ⟨⟨cause, consumed⟩, consumed + 1, scan.opened⟩ := by
  unfold Failure.atCharacter
  split
  · contradiction
  · split
    · next limit => exact absurd rfl (other limit)
    · rfl

/-- Only a scan between two factors closes a tree, and the limit refuses nothing at the end. -/
theorem finish_cases (scan : Scan) :
    (∃ (whole : Scan) (back : Bool), whole.outer = scan.outer ∧ scan.finish = whole.close back) ∨
      ∃ cause, scan.finish = .error cause ∧ ∀ limit, cause ≠ .tooDeep limit := by
  unfold Scan.finish
  cases scan.mode with
  | atom tree => exact .inl ⟨scan.complete tree, false, rfl, rfl⟩
  | next => exact .inl ⟨scan, false, rfl, rfl⟩
  | ended => exact .inl ⟨scan, true, rfl, rfl⟩
  | _ => exact .inr ⟨_, rfl, nofun⟩

theorem finish_ne_too_deep (limit : Nat) : scan.finish ≠ .error (.tooDeep limit) := by
  intro finished
  rcases finish_cases scan with ⟨whole, back, -, closes⟩ | ⟨cause, fails, other⟩
  · rw [closes, Scan.close] at finished
    split at finished
    · contradiction
    · cases finished
  · exact other limit (Except.error.inj (fails.symm.trans finished))

end

section

variable {maxDepth maxOpen otherDepth moreOpen consumed : Nat} {scan : Scan} {rest : List Char}

theorem mode_of_follow_ended {last : Scan} (continues : scan.mode ≠ .ended)
    (followed : scan.follow maxDepth maxOpen rest = .ok last) (ended : last.mode = .ended) :
    rest ≠ [] := by
  rintro rfl
  obtain rfl := Except.ok.inj followed
  exact continues ended

/-- A failed reading has taken a character if there was one, and its error lies in front of it. -/
theorem within_of_ends {failure : Failure} (continues : scan.mode ≠ .ended)
    (ends : scan.Ends maxDepth maxOpen consumed rest (.error failure)) :
    consumed ≤ failure.error.position ∧ failure.consumed ≤ consumed + rest.length ∧
      (rest ≠ [] → consumed < failure.consumed) := by
  cases ends with
  | atEnd followed unfinished =>
      refine ⟨Nat.le_add_right _ _, Nat.le_refl _, fun some => ?_⟩
      exact Nat.lt_add_of_pos_right (List.length_pos_iff.mpr some)
  | @atCharacter first further reached c cause followed refused =>
      rw [List.length_append, List.length_cons]
      by_cases ended : reached.mode = .ended
      · have some := List.length_pos_iff.mpr (mode_of_follow_ended continues followed ended)
        simp only [at_character_ended ended]
        omega
      · by_cases deep : ∃ limit, cause = .tooDeep limit
        · obtain ⟨limit, rfl⟩ := deep
          simp only [at_character_too_deep ended]
          omega
        · simp only [at_character_other ended (not_exists.mp deep)]
          omega

/-- Where the limit does not refuse a reading, a larger one changes nothing. -/
theorem ends_more {result : Except Failure Tree} (more : maxOpen ≤ moreOpen)
    (ends : scan.Ends maxDepth maxOpen consumed rest result)
    (other : ∀ failure, result = .error failure → ∀ limit, failure.error.cause ≠ .tooDeep limit) :
    scan.Ends otherDepth moreOpen consumed rest result := by
  cases ends with
  | read followed finished => exact .read (follow_more more followed) finished
  | atEnd followed unfinished => exact .atEnd (follow_more more followed) unfinished
  | @atCharacter first further reached c cause followed refused =>
      have unlimited : ∀ limit, cause ≠ .tooDeep limit := by
        intro limit
        rw [← at_character_cause reached (consumed + first.length) cause]
        exact other _ rfl limit
      exact .atCharacter (follow_more more followed) (step_refused unlimited refused)

/-- Where the limit refuses a reading, a bracket has come that a limit with room for one more group
lets open it. -/
theorem ends_too_deep {failure : Failure} {limit : Nat}
    (ends : scan.Ends maxDepth maxOpen consumed rest (.error failure))
    (deep : failure.error.cause = .tooDeep limit) :
    ∃ first further, ∃ next : Scan, rest = first ++ '(' :: further ∧
      failure = ⟨⟨.tooDeep maxDepth, consumed + first.length⟩, consumed + first.length + 1,
        next.opened⟩ ∧
      next.mode = .factor ∧ next.opened ≤ max scan.opened maxOpen + 1 ∧
      ∀ otherDepth moreOpen, next.opened ≤ moreOpen →
        scan.follow otherDepth moreOpen (first ++ ['(']) = .ok next := by
  cases ends with
  | atEnd followed unfinished =>
      obtain rfl : _ = Cause.tooDeep limit := deep
      exact absurd unfinished (finish_ne_too_deep limit)
  | @atCharacter first further reached c cause followed refused =>
      obtain rfl : cause = .tooDeep limit := (at_character_cause _ _ _).symm.trans deep
      obtain ⟨rfl, rfl, full, continues, next, opened, begun, opens⟩ := step_too_deep refused
      refine ⟨first, further, next, rfl, ?_, begun, ?_, ?_⟩
      · rw [at_character_too_deep continues, opened]
      · rw [opened]
        exact Nat.succ_le_succ (opened_of_follow followed).1
      · intro otherDepth moreOpen room
        rw [opened] at room
        rw [Scan.follow_append, follow_more (Nat.le_trans full (Nat.le_of_succ_le room)) followed]
        exact (Scan.follow_singleton reached '(').trans (opens otherDepth moreOpen room)

end

/-! ## Whole patterns -/

section

variable {limits : Limits} {pattern : List Char} {error : SyntaxError}

theorem parse_error_iff_ends : parse limits pattern = .error error ↔
    ∃ failure, ({} : Scan).Ends limits.maxDepth limits.maxDepth 0 pattern (.error failure) ∧
      failure.error = error := by
  rw [parse, map_error_error_iff]
  constructor
  · rintro ⟨failure, failed, same⟩
    have ends := ends_read limits.maxDepth limits.maxDepth 0 {} pattern
    rw [failed] at ends
    exact ⟨failure, ends, same⟩
  · rintro ⟨failure, ends, same⟩
    exact ⟨failure, read_of_ends ends, same⟩

end

end RegexMachine.Pattern
