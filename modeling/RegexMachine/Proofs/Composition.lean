import RegexMachine.Proofs.Scans

/-!
# Putting patterns together

A bar between two patterns, an anchor at one of their ends and brackets around one do to the trees what
they do to the texts. The grammar says so of what its rules derive, so nothing has to be said of the
places where a reading would stop.
-/

namespace RegexMachine.Pattern

section

variable {first second : List Char} {alternatives others : List Tree} {body : Tree}

/-- A pattern is a body between its anchors. -/
theorem body_of_derives {pattern : List Char} {front back : Bool}
    (derives : Derives .pattern pattern (.anchored front body back)) :
    ∃ written, pattern = marked front written ++ (if back then ['$'] else []) ∧
      Derives .body written body ∧ Unmarked front written := by
  cases derives with
  | pattern back ofBody unmarked => exact ⟨_, rfl, ofBody, unmarked⟩

/-- The alternatives of two bodies with a bar between them. -/
theorem derives_bar (ofFirst : Derives .body first (.choice alternatives))
    (ofSecond : Derives .body second (.choice others)) :
    Derives .body (first ++ ['|'] ++ second) (.choice (alternatives ++ others)) := by
  generalize isBody : Rule.body = rule at ofSecond
  generalize isChoice : Tree.choice others = tree at ofSecond
  induction ofSecond generalizing others with
  | only ofAlternative =>
      obtain rfl := Tree.choice.inj isChoice
      exact .orElse ofFirst ofAlternative
  | orElse ofEarlier ofAlternative ofBar =>
      obtain rfl := Tree.choice.inj isChoice
      have further := Derives.orElse (ofBar rfl rfl) ofAlternative
      simpa only [List.append_assoc] using further
  | _ => contradiction

theorem derives_grouped (ofBody : Derives .body first body) :
    Derives .body ('(' :: first ++ [')']) (.choice [.sequence [.group body]]) :=
  .only (.first (.single (.group ofBody)))

theorem group_depth_grouped : (Tree.choice [.sequence [.group body]]).groupDepth = body.groupDepth + 1 := by
  simp only [Tree.groupDepth, Tree.group_depth_of_all_singleton]

end

/-- Reading takes a text put together from patterns to the tree put together from their trees. -/
theorem parse_compose {limits : Limits} {first second : List Char} {alternatives others : List Tree}
    {back : Bool}
    (ofFirst : parse limits first = .ok (.anchored false (.choice alternatives) false))
    (ofSecond : parse limits second = .ok (.anchored false (.choice others) back)) :
    parse limits (first ++ '|' :: second) =
        .ok (.anchored false (.choice (alternatives ++ others)) back) ∧
      parse limits ('^' :: second) = .ok (.anchored true (.choice others) back) ∧
      parse limits (first ++ ['$']) = .ok (.anchored false (.choice alternatives) true) ∧
      ∀ deeper : Limits, deeper.maxDepth = limits.maxDepth + 1 →
        parse deeper ('(' :: first ++ [')']) =
          .ok (.anchored false (.choice [.sequence [.group (.choice alternatives)]]) false) := by
  have roomFirst := group_depth_of_parse ofFirst
  have roomSecond := group_depth_of_parse ofSecond
  rw [Tree.groupDepth] at roomFirst roomSecond
  obtain ⟨written, rfl, ofBody, plain⟩ := body_of_derives (derives_of_parse ofFirst)
  obtain ⟨other, rfl, ofOther, -⟩ := body_of_derives (derives_of_parse ofSecond)
  refine ⟨?_, ?_, ?_, ?_⟩
  · have unmarked : Unmarked false (written ++ (['|'] ++ other)) :=
      unmarked_append plain (fun _ => derives_ne_nil ofBody) _
    rw [← List.append_assoc] at unmarked
    have room : (Tree.choice (alternatives ++ others)).groupDepth ≤ limits.maxDepth := by
      rw [Tree.groupDepth, Tree.group_depth_of_all_append]
      exact Nat.max_le.mpr ⟨roomFirst, roomSecond⟩
    have parsed := parse_of_within (.pattern back (derives_bar ofBody ofOther) unmarked) room
    simpa [marked] using parsed
  · exact parse_of_within (.pattern back ofOther (unmarked_true other)) roomSecond
  · have parsed := parse_of_within (.pattern true ofBody plain) roomFirst
    simpa [marked] using parsed
  · intro deeper isDeeper
    have unmarked : Unmarked false ('(' :: written ++ [')']) := fun _ => by simp
    have room : (Tree.choice [.sequence [.group (.choice alternatives)]]).groupDepth ≤
        deeper.maxDepth := by
      rw [group_depth_grouped, isDeeper]
      exact Nat.succ_le_succ roomFirst
    have parsed := parse_of_within (.pattern false (derives_grouped ofBody) unmarked) room
    simpa [marked] using parsed

theorem parse_compose_literal :
    parse .standard "a|b".toList =
        .ok (.anchored false (.choice [.sequence [.char 'a'], .sequence [.char 'b']]) false) ∧
      parse .standard "$c$".toList =
        .ok (.anchored false (.choice [.sequence [.char '$', .char 'c']]) true) ∧
      parse .standard "a|b|$c$".toList =
        .ok (.anchored false (.choice [.sequence [.char 'a'], .sequence [.char 'b'],
          .sequence [.char '$', .char 'c']]) true) := by
  have ofFirst : parse .standard "a|b".toList =
      .ok (.anchored false (.choice [.sequence [.char 'a'], .sequence [.char 'b']]) false) := rfl
  have ofSecond : parse .standard "$c$".toList =
      .ok (.anchored false (.choice [.sequence [.char '$', .char 'c']]) true) := rfl
  exact ⟨ofFirst, ofSecond, (parse_compose ofFirst ofSecond).1⟩

end RegexMachine.Pattern
