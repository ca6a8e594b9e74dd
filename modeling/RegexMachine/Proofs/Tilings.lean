import RegexMachine.Proofs.Alternatives
import RegexMachine.Proofs.Origins
import RegexMachine.Proofs.Spans

/-!
# The captures of a repeated group tile the match

While a group is repeated, a path is either between two copies of its body or in one. Between them the
captures so far tile the text from the start of the match up to where the path is. In a copy they tile
it up to where the copy began, which is where the open group began, and the path is where a path of
the body alone can be that began there. A body without groups leaves the captures and the open groups
as they are, so that each step keeps this. How many copies were made is known from the place between
two copies: each repetition has its own places, and the rest is the same for all.
-/

namespace RegexMachine

open RegexMachine.Machine

/-! ## Tilings and copies -/

/-- The first span begins at the first offset and each further one where the one before it ends, up to
the last offset, and all are of the kind. -/
inductive Tiles (kind : Int → Int → Prop) : Int → List Span → Int → Prop
  | nil (place : Int) : Tiles kind place [] place
  | cons {first next last rest} (ofFirst : kind first next) (ofRest : Tiles kind next rest last) :
      Tiles kind first (⟨first, next⟩ :: rest) last

theorem tiles_concat {kind : Int → Int → Prop} {first middle last : Int} {spans : List Span}
    (tiles : Tiles kind first spans middle) (ofLast : kind middle last) :
    Tiles kind first (spans ++ [⟨middle, last⟩]) last := by
  induction tiles with
  | nil place => exact .cons ofLast (.nil last)
  | cons ofFirst ofRest induction => exact .cons ofFirst (induction ofLast)

/-- Some path of the code from the first offset finishes at the last. -/
def Copies (own : Array Instruction) (text : Array Char) (first last : Int) : Prop :=
  ∃ path, Path.Leads own text { position := first } path ∧
    fetch own path.pc = some .finish ∧ path.position = last

/-! ## Code without brackets -/

structure Instruction.Plain (instruction : Instruction) : Prop where
  opensNone : instruction ≠ .openGroup
  closesNone : instruction ≠ .closeGroup
  unfinished : instruction ≠ .finish

theorem plain_relocate {instruction : Instruction} (plain : instruction.Plain) (offset : Int) :
    (instruction.relocate offset).Plain := by
  cases instruction with
  | jump target => exact ⟨nofun, nofun, nofun⟩
  | fork first second => exact ⟨nofun, nofun, nofun⟩
  | char | anchor | openGroup | closeGroup | finish => exact plain

namespace Machine

def Path.framed (opened : List Int) (closed : Array Span) (path : Path) : Path :=
  { path with opened, closed }

def Fate.framed (opened : List Int) (closed : Array Span) : Fate → Fate
  | .halts halt => .halts halt
  | .goes next => .goes (next.framed opened closed)
  | .forks first second => .forks (first.framed opened closed) (second.framed opened closed)

theorem meet_framed {instruction : Instruction} (plain : instruction.Plain) (text : Array Char)
    (path : Path) (opened : List Int) (closed : Array Span) :
    (path.framed opened closed).meet text instruction =
      (path.meet text instruction).framed opened closed := by
  cases instruction with
  | char test =>
      simp only [Path.meet, Path.take]
      by_cases before : path.position < text.size
      · cases read : Indexing.item? text path.position with
        | none => simp [Path.framed, Fate.framed, before, read]
        | some c =>
            cases accepted : test.accepts c <;>
              simp [Path.framed, Fate.framed, before, read, accepted]
      · simp [Path.framed, Fate.framed, before]
  | jump target => rfl
  | fork first second => rfl
  | anchor place =>
      have same : (path.framed opened closed).atAnchor text place = path.atAnchor text place := by
        cases place <;> rfl
      simp only [Path.meet, same]
      split <;> rfl
  | openGroup => exact absurd rfl plain.opensNone
  | closeGroup => exact absurd rfl plain.closesNone
  | finish => exact absurd rfl plain.unfinished

end Machine

section

variable {own instructions : Array Instruction} {text : Array Char} {body : Fragment} {head : Nat}

theorem fate_of_fetch {path : Path} {instruction : Instruction}
    (fetched : fetch instructions path.pc = some instruction) :
    path.fate instructions text = path.meet text instruction := by
  rw [Path.fate, fetched]

theorem fate_framed (ofOwn : Placed own 0 body) (plain : ∀ instruction ∈ body, instruction.Plain)
    {path : Path} {offset : Nat} (inside : offset < body.length)
    (here : path.pc = (0 + offset : Nat)) (opened : List Int) (closed : Array Span) :
    (path.framed opened closed).fate own text = (path.fate own text).framed opened closed := by
  have fetched := fetch_placed ofOwn inside
  rw [← here] at fetched
  have framed : fetch own (path.framed opened closed).pc = _ := fetched
  rw [fate_of_fetch fetched, fate_of_fetch framed]
  exact meet_framed (plain_relocate (plain _ (List.getElem_mem inside)) _) text path opened closed

/-- In a copy each step is a step of the body alone. -/
theorem becomes_copied (ofOwn : Placed own 0 body) (placed : Placed instructions head body)
    (plain : ∀ instruction ∈ body, instruction.Plain) {inner next : Path} {offset : Nat}
    (inside : offset < body.length) (here : inner.pc = (0 + offset : Nat)) {opened : List Int}
    {closed : Array Span}
    (becomes : ((inner.framed opened closed).moved head).Becomes instructions text next) :
    ∃ further, inner.Becomes own text further ∧ next = (further.framed opened closed).moved head := by
  have moved : ((inner.framed opened closed).moved (head - (0 : Nat))).fate instructions text = _ :=
    fate_moved ofOwn placed inside here
  rw [fate_framed ofOwn plain inside here, Int.natCast_zero, Int.sub_zero] at moved
  cases alone : inner.fate own text with
  | halts halt =>
      rw [alone] at moved
      exact absurd becomes (not_becomes_of_halts moved)
  | goes further =>
      rw [alone] at moved
      exact ⟨further, .goes alone, eq_of_goes moved becomes⟩
  | forks first second =>
      rw [alone] at moved
      rcases eq_of_forks moved becomes with same | same
      · exact ⟨first, .first alone, same⟩
      · exact ⟨second, .second alone, same⟩

end

/-! ## Between two copies and in a copy -/

/-- What stands at a place between two copies, where this many of them were made: control is led on to
such a place, through a further copy to one, or to the end. -/
inductive Junction (instructions : Array Instruction) (body : Fragment) (between : Nat → Int → Prop)
    (allowed : Nat → Prop) (count : Nat) (place : Int) : Prop
  | jump {target} (found : fetch instructions place = some (.jump target))
      (there : between count target)
  | fork {first second} (found : fetch instructions place = some (.fork first second))
      (ofFirst : between count first) (ofSecond : between count second)
  | copy {head : Nat} (here : place = head) (placed : Placed instructions head body.group)
      (behind : between (count + 1) (head + body.group.length : Nat))
  | finish (found : fetch instructions place = some .finish) (enough : allowed count)

/-- The code makes copies of the group one after the other, and no others than `allowed` by the time
it finishes. -/
structure Repeating (instructions : Array Instruction) (body : Fragment)
    (between : Nat → Int → Prop) (allowed : Nat → Prop) : Prop where
  first : between 0 0
  junction : ∀ count place, between count place →
    Junction instructions body between allowed count place

inductive Stands (own instructions : Array Instruction) (text : Array Char) (body : Fragment)
    (between : Nat → Int → Prop) (start : Int) : Path → Prop
  | outside {path} (here : between path.closed.size path.pc) (opened : path.opened = [])
      (tiles : Tiles (Copies own text) start path.closed.toList path.position) :
      Stands own instructions text body between start path
  | inside {head offset : Nat} {inner : Path} {first : Int} {closed : Array Span}
      (placed : Placed instructions head body.group)
      (behind : between (closed.size + 1) (head + body.group.length : Nat))
      (within : offset ≤ body.length) (here : inner.pc = (0 + offset : Nat))
      (leads : Path.Leads own text { position := first } inner)
      (tiles : Tiles (Copies own text) start closed.toList first) :
      Stands own instructions text body between start
        ((inner.framed [first] closed).moved (head + 1 : Nat))

section

variable {own instructions : Array Instruction} {text : Array Char} {body : Fragment}
  {between : Nat → Int → Prop} {allowed : Nat → Prop} {start : Int}

theorem stands_outside (repeating : Repeating instructions body between allowed) {path next : Path}
    (here : between path.closed.size path.pc) (opened : path.opened = [])
    (tiles : Tiles (Copies own text) start path.closed.toList path.position)
    (becomes : path.Becomes instructions text next) :
    Stands own instructions text body between start next := by
  cases repeating.junction _ _ here with
  | @jump target found there =>
      have fate : path.fate instructions text = .goes { path with pc := target } :=
        fate_of_fetch found
      rw [eq_of_goes fate becomes]
      exact .outside there opened tiles
  | @fork first second found ofFirst ofSecond =>
      have fate : path.fate instructions text =
          .forks { path with pc := first } { path with pc := second } := fate_of_fetch found
      rcases eq_of_forks fate becomes with same | same
      · rw [same]
        exact .outside ofFirst opened tiles
      · rw [same]
        exact .outside ofSecond opened tiles
  | @copy head atHead placed behind =>
      obtain ⟨pc, position, groups, closed⟩ := path
      obtain rfl : pc = head := atHead
      obtain rfl : groups = [] := opened
      have fate := fate_placed (placed_group placed).1 text position [] closed
      rw [eq_of_goes fate becomes]
      have same : (⟨head + 1, position, [position], closed⟩ : Path) =
          (({ position } : Path).framed [position] closed).moved (head + 1 : Nat) := by
        rw [Path.moved, Path.framed, Int.zero_add]
        rfl
      rw [same]
      exact .inside placed behind (Nat.zero_le _) rfl .refl tiles
  | finish found enough =>
      have fate : path.fate instructions text = .halts (.matched path.position path.closed) :=
        fate_of_fetch found
      exact absurd becomes (not_becomes_of_halts fate)

theorem stands_inside (ofOwn : Placed own 0 body) (finish : own[0 + body.length]? = some .finish)
    (reaches : body.Reaches 0 0) (plain : ∀ instruction ∈ body, instruction.Plain)
    {head offset : Nat} {inner next : Path} {first : Int} {closed : Array Span}
    (placed : Placed instructions head body.group)
    (behind : between (closed.size + 1) (head + body.group.length : Nat))
    (within : offset ≤ body.length) (here : inner.pc = (0 + offset : Nat))
    (leads : Path.Leads own text { position := first } inner)
    (tiles : Tiles (Copies own text) start closed.toList first)
    (becomes : ((inner.framed [first] closed).moved (head + 1 : Nat)).Becomes instructions text next) :
    Stands own instructions text body between start next := by
  obtain ⟨-, placedBody, closes⟩ := placed_group placed
  rcases Nat.eq_or_lt_of_le within with atEnd | before
  · -- the body alone finishes where the group is closed here
    have copy : Copies own text first inner.position := by
      refine ⟨inner, leads, ?_, rfl⟩
      rw [here, atEnd, fetch_nat_cast]
      exact finish
    have atClose : inner.pc + (head + 1 : Nat) = (head + 1 + body.length : Nat) := by omega
    have behindClose : inner.pc + (head + 1 : Nat) + 1 = (head + body.group.length : Nat) := by
      rw [Fragment.length_group]
      omega
    have fate : ((inner.framed [first] closed).moved (head + 1 : Nat)).fate instructions text =
        .goes ⟨inner.pc + (head + 1 : Nat) + 1, inner.position, [],
          closed.push ⟨first, inner.position⟩⟩ := by
      rw [Path.moved, Path.framed, atClose, fate_placed closes]
      rfl
    rw [eq_of_goes fate becomes]
    refine .outside ?_ rfl ?_
    · rw [Array.size_push, behindClose]
      exact behind
    · rw [Array.toList_push]
      exact tiles_concat tiles copy
  · obtain ⟨further, stepped, same⟩ := becomes_copied ofOwn placedBody plain before here becomes
    obtain ⟨offset, within, there⟩ := becomes_inside reaches ofOwn before here stepped
    rw [same]
    exact .inside placed behind within there (leads.tail stepped) tiles

theorem inherited_stands (repeating : Repeating instructions body between allowed)
    (ofOwn : Placed own 0 body) (finish : own[0 + body.length]? = some .finish)
    (reaches : body.Reaches 0 0) (plain : ∀ instruction ∈ body, instruction.Plain) :
    Path.Inherited instructions text (Stands own instructions text body between start) := by
  intro path next becomes stands
  cases stands with
  | outside here opened tiles => exact stands_outside repeating here opened tiles becomes
  | inside placed behind within here leads tiles =>
      exact stands_inside ofOwn finish reaches plain placed behind within here leads tiles becomes

/-- No path finishes in a copy. -/
theorem tiles_of_stands (repeating : Repeating instructions body between allowed)
    (plain : ∀ instruction ∈ body, instruction.Plain) {path : Path}
    (stands : Stands own instructions text body between start path)
    (finish : fetch instructions path.pc = some .finish) :
    Tiles (Copies own text) start path.closed.toList path.position ∧ allowed path.closed.size := by
  cases stands with
  | outside here opened tiles =>
      cases repeating.junction _ _ here with
      | jump found there => cases finish.symm.trans found
      | fork found ofFirst ofSecond => cases finish.symm.trans found
      | copy atHead placed behind =>
          rw [atHead, fetch_nat_cast, (placed_group placed).1] at finish
          contradiction
      | finish found enough => exact ⟨tiles, enough⟩
  | @inside head offset inner first closed placed behind within here leads tiles =>
      obtain ⟨-, placedBody, closes⟩ := placed_group placed
      have there : inner.pc + (head + 1 : Nat) = (head + 1 + offset : Nat) := by omega
      rw [Path.moved, Path.framed, there] at finish
      rcases Nat.eq_or_lt_of_le within with atEnd | before
      · rw [atEnd, fetch_nat_cast, closes] at finish
        contradiction
      · rw [fetch_placed placedBody before] at finish
        have relocated := plain_relocate (plain _ (List.getElem_mem before)) (head + 1 + offset : Nat)
        exact absurd (Option.some.inj finish) relocated.unfinished

end

/-! ## Repetitions -/

/-- The trees that repeat the body as a group, with the numbers of copies that they allow. -/
inductive Tree.RepeatedBy (body : Tree) : Tree → (Nat → Prop) → Prop
  | star : RepeatedBy body (.star (.group body)) fun _ => True
  | plus : RepeatedBy body (.plus (.group body)) fun count => 1 ≤ count
  | range {least most : Int} (nonnegative : 0 ≤ least) (ordered : least ≤ most) :
      RepeatedBy body (.range (.group body) least most) fun count => least ≤ count ∧ count ≤ most

section

variable {instructions : Array Instruction} {body : Fragment}

/-- The places between the copies of a starred group, whose own size is `size`: the fork in front, the
group behind it, the jump back and the exit. -/
inductive BetweenStar (size count : Nat) : Int → Prop
  | fork : BetweenStar size count (0 : Nat)
  | chosen : BetweenStar size count (0 + 1 : Nat)
  | jump : BetweenStar size count (0 + 1 + size : Nat)
  | exit : BetweenStar size count (0 + 1 + size + 1 : Nat)

theorem repeating_star (placed : Placed instructions 0 body.group.star)
    (finish : instructions[0 + body.group.star.length]? = some .finish) :
    Repeating instructions body (BetweenStar body.group.length) fun _ => True := by
  obtain ⟨fork, placedGroup, jump⟩ := placed_star placed
  rw [Fragment.length_star, ← Nat.add_assoc, ← Nat.add_assoc] at finish
  rw [← fetch_nat_cast] at fork jump finish
  refine ⟨.fork, ?_⟩
  intro count place here
  cases here with
  | fork => exact .fork fork .chosen .exit
  | chosen => exact .copy rfl placedGroup .jump
  | jump => exact .jump jump .fork
  | exit => exact .finish finish trivial

/-- The places between the copies where one at least is made: the group in front, the fork back to it
and the exit. -/
inductive BetweenPlus (size count : Nat) : Int → Prop
  | first : BetweenPlus size count (0 : Nat)
  | fork (some : 1 ≤ count) : BetweenPlus size count (0 + size : Nat)
  | exit (some : 1 ≤ count) : BetweenPlus size count (0 + size + 1 : Nat)

theorem repeating_plus (placed : Placed instructions 0 body.group.plus)
    (finish : instructions[0 + body.group.plus.length]? = some .finish) :
    Repeating instructions body (BetweenPlus body.group.length) fun count => 1 ≤ count := by
  obtain ⟨placedGroup, fork⟩ := placed_plus placed
  rw [Fragment.length_plus, ← Nat.add_assoc] at finish
  rw [← fetch_nat_cast] at fork finish
  refine ⟨.first, ?_⟩
  intro count place here
  cases here with
  | first => exact .copy rfl placedGroup (.fork (Nat.le_add_left 1 count))
  | fork some => exact .fork fork .first (.exit some)
  | exit some => exact .finish finish some

theorem placed_copies {place : Nat} {fragment : Fragment} {count : Nat}
    (placed : Placed instructions place (List.replicate count fragment).flatten) {made : Nat}
    (few : made < count) : Placed instructions (place + made * fragment.length) fragment := by
  induction count generalizing place made with
  | zero => contradiction
  | succ count induction =>
      rw [List.replicate_succ, List.flatten_cons] at placed
      obtain ⟨first, others⟩ := placed_append placed
      cases made with
      | zero =>
          rw [Nat.zero_mul]
          exact first
      | succ made =>
          rw [Nat.succ_mul, Nat.add_comm (made * fragment.length), ← Nat.add_assoc]
          exact induction others (Nat.lt_of_succ_lt_succ few)

/-- The places between the copies of a range: in front of the next mandatory copy, in front of the
fork of the next optional one, and behind that fork. -/
inductive BetweenRange (size least further count : Nat) : Int → Prop
  | mandatory (few : count < least) : BetweenRange size least further count (count * size : Nat)
  | optional {tried : Nat} (within : tried ≤ further) (enough : least ≤ count)
      (most : count ≤ least + tried) :
      BetweenRange size least further count (least * size + tried * (1 + size) : Nat)
  | chosen {tried : Nat} (within : tried < further) (enough : least ≤ count)
      (most : count ≤ least + tried) :
      BetweenRange size least further count (least * size + tried * (1 + size) + 1 : Nat)

theorem between_range_mandatory {size least further count : Nat} (few : count ≤ least) :
    BetweenRange size least further count (count * size : Nat) := by
  rcases Nat.eq_or_lt_of_le few with rfl | fewer
  · have first : BetweenRange size count further count (count * size + 0 * (1 + size) : Nat) :=
      .optional (Nat.zero_le further) (Nat.le_refl count) (Nat.le_refl count)
    rwa [Nat.zero_mul] at first
  · exact .mandatory fewer

theorem between_range_optional {size least further count tried : Nat} (within : tried < further)
    (enough : least ≤ count) (most : count ≤ least + tried + 1) :
    BetweenRange size least further count
      (least * size + tried * (1 + size) + 1 + size : Nat) := by
  have next : BetweenRange size least further count
      (least * size + (tried + 1) * (1 + size) : Nat) := .optional within enough most
  rwa [Nat.succ_mul, ← Nat.add_assoc, ← Nat.add_assoc] at next

theorem repeating_range {least most : Int}
    (placed : Placed instructions 0 (body.group.range least most))
    (finish : instructions[0 + (body.group.range least most).length]? = some .finish) :
    Repeating instructions body
      (BetweenRange body.group.length least.toNat (most - least).toNat) fun count =>
        least.toNat ≤ count ∧ count ≤ least.toNat + (most - least).toNat := by
  obtain ⟨placedMandatory, placedOptional⟩ := placed_append placed
  rw [length_copies, Nat.zero_add] at placedOptional
  rw [Fragment.range, List.length_append, length_copies, length_copies, Fragment.length_optional,
    Nat.zero_add, ← fetch_nat_cast] at finish
  constructor
  · have first : BetweenRange body.group.length least.toNat (most - least).toNat 0
        (0 * body.group.length : Nat) := between_range_mandatory (Nat.zero_le _)
    rwa [Nat.zero_mul] at first
  · intro count place here
    cases here with
    | mandatory few =>
        have next := placed_copies placedMandatory few
        rw [Nat.zero_add] at next
        refine .copy rfl next ?_
        rw [← Nat.succ_mul]
        exact between_range_mandatory few
    | @optional tried within enough few =>
        rcases Nat.eq_or_lt_of_le within with rfl | before
        · exact .finish finish ⟨enough, few⟩
        · have next := placed_copies placedOptional before
          rw [Fragment.length_optional] at next
          obtain ⟨fork, -⟩ := placed_optional next
          rw [← fetch_nat_cast] at fork
          exact .fork fork (.chosen before enough few)
            (between_range_optional before enough (Nat.le_succ_of_le few))
    | @chosen tried within enough few =>
        have next := placed_copies placedOptional within
        rw [Fragment.length_optional] at next
        refine .copy rfl (placed_optional next).2 ?_
        exact between_range_optional within (Nat.le_succ_of_le enough) (Nat.succ_le_succ few)

/-- The code of a repetition is code that repeats the group. -/
theorem repeating_of_repeated_by {tree repetition : Tree} {allowed : Nat → Prop}
    (repeats : tree.RepeatedBy repetition allowed) (ofTree : Assembled tree body) :
    ∃ code, repetition.assemble = .ok code ∧
      ∀ instructions, Placed instructions 0 code →
        instructions[0 + code.length]? = some .finish →
        ∃ between, Repeating instructions body between allowed := by
  cases repeats with
  | star =>
      refine ⟨_, assemble_of_assembled (.star (.group ofTree)), ?_⟩
      exact fun instructions placed finish => ⟨_, repeating_star placed finish⟩
  | plus =>
      refine ⟨_, assemble_of_assembled (.plus (.group ofTree)), ?_⟩
      exact fun instructions placed finish => ⟨_, repeating_plus placed finish⟩
  | @range least most nonnegative ordered =>
      refine ⟨_, assemble_of_assembled (.range ordered (.group ofTree)), ?_⟩
      intro instructions placed finish
      have repeating := repeating_range placed finish
      have same : (fun count : Nat => least.toNat ≤ count ∧
          count ≤ least.toNat + (most - least).toNat) =
          fun count : Nat => least ≤ count ∧ count ≤ most := by
        funext count
        apply propext
        omega
      rw [same] at repeating
      exact ⟨_, repeating⟩

theorem plain_of_groupless {tree : Tree} (groupless : tree.Groupless) (ofTree : Assembled tree body) :
    ∀ instruction ∈ body, instruction.Plain := by
  intro instruction member
  have bracketless := Tree.plain_of_emitted groupless (emitted_of_assembled ofTree _ member)
  refine ⟨bracketless.1, bracketless.2, ?_⟩
  intro finish
  rw [finish] at member
  exact finish_not_mem ofTree member

end

/-- What a repeated group captures tiles the match: the first copy begins at the start, each further one
where the one before it ends, and the last ends where the match does. Each is a run of the body alone,
and there are as many as the repetition allows. -/
theorem repeated_group_tiles {body : Tree} (groupless : body.Groupless) {ownSource : List Char}
    {own : Program} (compiled : body.compile ownSource = .ok own) {tree : Tree}
    {allowed : Nat → Prop} (repeats : body.RepeatedBy tree allowed) (source : List Char) :
    ∃ program, tree.compile source = .ok program ∧
      ∀ (limits : Limits) (text : Array Char) (start : Int) (result : Match),
        (Engine.matchAt limits program text start).run.value = .ok (some result) →
        ∃ stop captures, result.spans.toList = ⟨start, stop⟩ :: captures ∧
          Tiles (Copies own.instructions text) start captures stop ∧ allowed captures.length := by
  obtain ⟨fragment, assembled, ofOwn, finishOwn⟩ := placed_of_compile compiled
  have ofBody := assembled_of_assemble body assembled
  have plain := plain_of_groupless groupless ofBody
  obtain ⟨code, assembledTree, repeatsIn⟩ := repeating_of_repeated_by repeats ofBody
  obtain ⟨program, compiledTree⟩ := compile_of_assemble assembledTree source
  refine ⟨program, compiledTree, ?_⟩
  intro limits text start result found
  obtain ⟨again, same, placed, finish⟩ := placed_of_compile compiledTree
  obtain rfl := Except.ok.inj (assembledTree.symm.trans same)
  obtain ⟨between, repeating⟩ := repeatsIn _ placed finish
  obtain ⟨spans, steps, attempted, rfl⟩ := attempt_of_match_at found
  have reaches := assembled_reaches ofBody
  have initial : Stands own.instructions program.instructions text fragment between start
      { position := start } := .outside repeating.first rfl (.nil start)
  obtain ⟨path, stands, atEnd, rfl⟩ := finish_of_found
    (inherited_stands repeating ofOwn finishOwn reaches plain) initial attempted
  obtain ⟨tiles, enough⟩ := tiles_of_stands repeating plain stands atEnd
  exact ⟨path.position, path.closed.toList, rfl, tiles, enough⟩

/-- Two copies take a character each, and a third takes none. -/
theorem repeated_group_tiles_empty_copy :
    let body : Tree := .optional (.char 'a')
    let tree : Tree := .range (.group body) 2 3
    let result : Match := ⟨#['a', 'a'], #[⟨0, 2⟩, ⟨0, 1⟩, ⟨1, 2⟩, ⟨2, 2⟩], 14⟩
    ∃ own program, body.compile = .ok own ∧ tree.compile = .ok program ∧
      (Engine.matchAt .standard program #['a', 'a'] 0).run.value = .ok (some result) ∧
      Tiles (Copies own.instructions #['a', 'a']) 0 [⟨0, 1⟩, ⟨1, 2⟩, ⟨2, 2⟩] 2 := by
  intro body tree result
  have groupless : body.Groupless := by
    intro inner
    simp [body, Tree.walk]
  obtain ⟨own, compiled⟩ : ∃ own, body.compile = .ok own := ⟨_, rfl⟩
  have repeats : body.RepeatedBy tree fun count => 2 ≤ (count : Int) ∧ (count : Int) ≤ 3 :=
    .range (by decide) (by decide)
  obtain ⟨program, compiledTree, found⟩ : ∃ program, tree.compile = .ok program ∧
      (Engine.matchAt .standard program #['a', 'a'] 0).run.value = .ok (some result) :=
    ⟨_, rfl, rfl⟩
  obtain ⟨again, compiledAgain, tiled⟩ := repeated_group_tiles groupless compiled repeats []
  obtain rfl := Except.ok.inj (compiledTree.symm.trans compiledAgain)
  obtain ⟨stop, captures, spans, tiles, -⟩ := tiled .standard _ 0 result found
  obtain ⟨whole, rfl⟩ := List.cons.inj spans
  cases whole
  exact ⟨own, program, compiled, compiledTree, found, tiles⟩

end RegexMachine
