import RegexMachine.Proofs.Reachable

/-!
# The first live leaf

The paths that come from a path are the nodes of a tree, which need not be finite. A node is found by
the sides that are taken on the way to it, and the paths that halt are the leaves; a leaf is live
unless a test fails there. In the order of the addresses a node comes before all nodes below it, and
those below the first target of a fork come before those below the second. The machine visits the
nodes in this order, one with each step, until it comes to the first live leaf, and halts as that leaf
does. It goes through the whole tree if no leaf is live.
-/

namespace RegexMachine.Machine

/-! ## The tree of paths -/

/-- Where a path continues. One that does not fork continues on its first side only. -/
inductive Side
  | first
  | second
deriving DecidableEq, Repr

abbrev Address := List Side

def Address.Before : Address → Address → Prop :=
  List.Lex fun left right => left = .first ∧ right = .second

def Fate.child? : Fate → Side → Option Path
  | goes next, .first => some next
  | forks left _, .first => some left
  | forks _ right, .second => some right
  | _, _ => none

def Path.descend? (instructions : Array Instruction) (text : Array Char) :
    Path → Address → Option Path
  | path, [] => some path
  | path, side :: address =>
      ((path.fate instructions text).child? side).bind fun child =>
        child.descend? instructions text address

structure Path.LeafAt (instructions : Array Instruction) (text : Array Char) (root : Path)
    (address : Address) (leaf : Path) (halt : Halt) : Prop where
  found : root.descend? instructions text address = some leaf
  ends : leaf.fate instructions text = .halts halt

def Path.Barren (instructions : Array Instruction) (text : Array Char) (root : Path) : Prop :=
  ∀ address leaf halt, root.LeafAt instructions text address leaf halt → halt = .exhausted

structure Path.FirstLive (instructions : Array Instruction) (text : Array Char) (root : Path)
    (address : Address) (leaf : Path) (halt : Halt) : Prop
    extends root.LeafAt instructions text address leaf halt where
  live : halt ≠ .exhausted
  first : ∀ other path last, root.LeafAt instructions text other path last → other.Before address →
    last = .exhausted

def Address.UpTo (last address : Address) : Prop :=
  address = last ∨ address.Before last

/-- The nodes whose addresses are wanted, in their order. -/
structure Path.Lists (instructions : Array Instruction) (text : Array Char) (root : Path)
    (wanted : Address → Prop) (visited : List Address) : Prop where
  sorted : visited.Pairwise Address.Before
  mem_iff : ∀ address, address ∈ visited ↔
    (root.descend? instructions text address).isSome ∧ wanted address

section

variable {address other : Address}

@[simp]
theorem not_before_root : ¬ address.Before [] :=
  List.not_lex_nil

@[simp]
theorem root_before {side : Side} : Address.Before [] (side :: address) :=
  List.Lex.nil

@[simp]
theorem before_below {side : Side} :
    Address.Before (side :: address) (side :: other) ↔ address.Before other := by
  cases side <;> simp [Address.Before, List.cons_lex_cons_iff]

@[simp]
theorem first_before_second : Address.Before (.first :: address) (.second :: other) :=
  List.Lex.rel ⟨rfl, rfl⟩

@[simp]
theorem not_second_before_first : ¬ Address.Before (.second :: address) (.first :: other) := by
  simp [Address.Before, List.cons_lex_cons_iff]

@[simp]
theorem root_up_to : other.UpTo [] := by
  cases other <;> simp [Address.UpTo]

@[simp]
theorem up_to_below {side : Side} :
    Address.UpTo (side :: other) (side :: address) ↔ other.UpTo address := by
  simp [Address.UpTo]

@[simp]
theorem first_up_to_second : Address.UpTo (.second :: other) (.first :: address) := by
  simp [Address.UpTo]

@[simp]
theorem not_second_up_to_first : ¬ Address.UpTo (.first :: other) (.second :: address) := by
  simp [Address.UpTo]

end

section

variable {instructions : Array Instruction} {text : Array Char} {path left right : Path}
  {halt : Halt} {wanted : Address → Prop} {visited ofLeft ofRight : List Address}

theorem child_goes {next : Path} (fate : path.fate instructions text = .goes next) :
    (path.fate instructions text).child? .first = some next := by
  rw [fate, Fate.child?]

theorem child_forks (fate : path.fate instructions text = .forks left right) :
    (path.fate instructions text).child? .first = some left ∧
      (path.fate instructions text).child? .second = some right := by
  rw [fate]
  exact ⟨rfl, rfl⟩

theorem descend_cons {child : Path} {side : Side}
    (below : (path.fate instructions text).child? side = some child) (address : Address) :
    path.descend? instructions text (side :: address) = child.descend? instructions text address := by
  rw [Path.descend?, below, Option.bind_some]

theorem leaf_at_cons {child leaf : Path} {side : Side} {address : Address}
    (below : (path.fate instructions text).child? side = some child)
    (leafAt : child.LeafAt instructions text address leaf halt) :
    path.LeafAt instructions text (side :: address) leaf halt where
  found := (descend_cons below address).trans leafAt.found
  ends := leafAt.ends

theorem leaf_at_cases {leaf : Path} {address : Address}
    (leafAt : path.LeafAt instructions text address leaf halt) :
    (address = [] ∧ path.fate instructions text = .halts halt) ∨
    ∃ side rest child, address = side :: rest ∧
      (path.fate instructions text).child? side = some child ∧
      child.LeafAt instructions text rest leaf halt := by
  obtain ⟨found, ends⟩ := leafAt
  cases address with
  | nil =>
      obtain rfl := Option.some.inj found
      exact .inl ⟨rfl, ends⟩
  | cons side rest =>
      obtain ⟨child, below, within⟩ := Option.bind_eq_some_iff.mp found
      exact .inr ⟨side, rest, child, rfl, below, within, ends⟩

/-! ## One level of the tree -/

theorem barren_halts (fate : path.fate instructions text = .halts .exhausted) :
    path.Barren instructions text := by
  intro address leaf halt leafAt
  rcases leaf_at_cases leafAt with ⟨-, ends⟩ | ⟨side, rest, child, -, below, -⟩
  · exact (Fate.halts.inj (fate.symm.trans ends)).symm
  · rw [fate] at below
    contradiction

theorem barren_children (live : ∀ halt, path.fate instructions text ≠ .halts halt)
    (barren : ∀ side child, (path.fate instructions text).child? side = some child →
      child.Barren instructions text) : path.Barren instructions text := by
  intro address leaf halt leafAt
  rcases leaf_at_cases leafAt with ⟨-, ends⟩ | ⟨side, rest, child, -, below, within⟩
  · exact absurd ends (live halt)
  · exact barren side child below rest leaf halt within

theorem first_live_root (fate : path.fate instructions text = .halts halt) (live : halt ≠ .exhausted) :
    path.FirstLive instructions text [] path halt where
  found := rfl
  ends := fate
  live := live
  first := fun _ _ _ _ before => absurd before not_before_root

theorem first_live_first {leaf : Path} {address : Address}
    (onFirst : (path.fate instructions text).child? .first = some left)
    (live : left.FirstLive instructions text address leaf halt) :
    path.FirstLive instructions text (.first :: address) leaf halt where
  toLeafAt := leaf_at_cons onFirst live.toLeafAt
  live := live.live
  first := by
    intro other path last leafAt before
    rcases leaf_at_cases leafAt with ⟨-, ends⟩ | ⟨side, rest, child, rfl, below, within⟩
    · rw [ends] at onFirst
      contradiction
    · cases side with
      | first =>
          obtain rfl := Option.some.inj (onFirst.symm.trans below)
          exact live.first rest path last within (before_below.mp before)
      | second => exact absurd before not_second_before_first

theorem first_live_second {leaf : Path} {address : Address}
    (fate : path.fate instructions text = .forks left right) (barren : left.Barren instructions text)
    (live : right.FirstLive instructions text address leaf halt) :
    path.FirstLive instructions text (.second :: address) leaf halt where
  toLeafAt := leaf_at_cons (child_forks fate).2 live.toLeafAt
  live := live.live
  first := by
    intro other path last leafAt before
    rcases leaf_at_cases leafAt with ⟨-, ends⟩ | ⟨side, rest, child, rfl, below, within⟩
    · rw [fate] at ends
      contradiction
    · rw [fate] at below
      cases side with
      | first =>
          obtain rfl := Option.some.inj below
          exact barren rest path last within
      | second =>
          obtain rfl := Option.some.inj below
          exact live.first rest path last within (before_below.mp before)

theorem lists_halts (fate : path.fate instructions text = .halts halt) (root : wanted []) :
    path.Lists instructions text wanted [[]] where
  sorted := List.pairwise_singleton _ _
  mem_iff := by
    intro address
    cases address with
    | nil => simp [Path.descend?, root]
    | cons side rest => simp [Path.descend?, fate, Fate.child?]

theorem lists_children {ofFirst ofSecond : List Address} (root : wanted [])
    (sortedFirst : ofFirst.Pairwise Address.Before) (sortedSecond : ofSecond.Pairwise Address.Before)
    (inFirst : ∀ address, address ∈ ofFirst ↔
      (path.descend? instructions text (.first :: address)).isSome ∧ wanted (.first :: address))
    (inSecond : ∀ address, address ∈ ofSecond ↔
      (path.descend? instructions text (.second :: address)).isSome ∧ wanted (.second :: address)) :
    path.Lists instructions text wanted
      ([] :: (ofFirst.map (.cons .first) ++ ofSecond.map (.cons .second))) where
  sorted := by
    have below : ∀ address ∈ ofFirst.map (.cons .first) ++ ofSecond.map (.cons .second),
        Address.Before [] address := by
      rw [List.forall_mem_append, List.forall_mem_map, List.forall_mem_map]
      exact ⟨fun _ _ => root_before, fun _ _ => root_before⟩
    rw [List.pairwise_cons, List.pairwise_append, List.pairwise_map, List.pairwise_map]
    simp only [List.forall_mem_map, before_below, first_before_second, implies_true, and_true]
    exact ⟨below, sortedFirst, sortedSecond⟩
  mem_iff := by
    intro address
    match address with
    | [] => simp [Path.descend?, root]
    | .first :: rest => simp [inFirst]
    | .second :: rest => simp [inSecond]

theorem lists_forks {ofLeft ofRight : List Address}
    (fate : path.fate instructions text = .forks left right) (root : wanted [])
    (first : left.Lists instructions text (fun address => wanted (.first :: address)) ofLeft)
    (second : right.Lists instructions text (fun address => wanted (.second :: address)) ofRight) :
    path.Lists instructions text wanted
      ([] :: (ofLeft.map (.cons .first) ++ ofRight.map (.cons .second))) := by
  refine lists_children root first.sorted second.sorted ?_ ?_
  · intro address
    rw [descend_cons (child_forks fate).1, first.mem_iff]
  · intro address
    rw [descend_cons (child_forks fate).2, second.mem_iff]

/-- Where nothing is wanted on the second side, or there is none. -/
theorem lists_first {child : Path} {visited : List Address}
    (onFirst : (path.fate instructions text).child? .first = some child) (root : wanted [])
    (first : child.Lists instructions text (fun address => wanted (.first :: address)) visited)
    (none : ∀ address, (path.descend? instructions text (.second :: address)).isSome →
      ¬ wanted (.second :: address)) :
    path.Lists instructions text wanted ([] :: visited.map (.cons .first)) := by
  have both : path.Lists instructions text wanted
      ([] :: (visited.map (.cons .first) ++ List.map (.cons .second) [])) := by
    refine lists_children root first.sorted .nil ?_ ?_
    · intro address
      rw [descend_cons onFirst, first.mem_iff]
    · intro address
      simpa using none address
  rwa [List.map_nil, List.append_nil] at both

end

/-! ## Visits -/

/-- Exploring the path comes to these nodes, in this order, and ends with `halt`. -/
inductive Visits (instructions : Array Instruction) (text : Array Char) :
    Path → List Address → Halt → Prop
  | halts {path halt} (fate : path.fate instructions text = .halts halt) :
      Visits instructions text path [[]] halt
  | goes {path next visited halt} (fate : path.fate instructions text = .goes next)
      (rest : Visits instructions text next visited halt) :
      Visits instructions text path ([] :: visited.map (.cons .first)) halt
  | first {path left right visited halt} (fate : path.fate instructions text = .forks left right)
      (found : Visits instructions text left visited halt) (ended : halt ≠ .exhausted) :
      Visits instructions text path ([] :: visited.map (.cons .first)) halt
  | second {path left right ofLeft ofRight halt}
      (fate : path.fate instructions text = .forks left right)
      (failed : Visits instructions text left ofLeft .exhausted)
      (rest : Visits instructions text right ofRight halt) :
      Visits instructions text path
        ([] :: (ofLeft.map (.cons .first) ++ ofRight.map (.cons .second))) halt

section

variable {instructions : Array Instruction} {text : Array Char} {path : Path} {halt : Halt}
  {visited : List Address}

theorem explores_iff_visits {steps : Nat} :
    Explores instructions text path steps halt ↔
      ∃ visited, visited.length = steps ∧ Visits instructions text path visited halt := by
  constructor
  · intro explored
    induction explored with
    | halts fate => exact ⟨_, rfl, .halts fate⟩
    | goes fate rest induction =>
        obtain ⟨visited, rfl, visits⟩ := induction
        exact ⟨_, by simp, .goes fate visits⟩
    | first fate found ended induction =>
        obtain ⟨visited, rfl, visits⟩ := induction
        exact ⟨_, by simp, .first fate visits ended⟩
    | second fate failed rest ofFailed ofRest =>
        obtain ⟨left, rfl, visitsLeft⟩ := ofFailed
        obtain ⟨right, rfl, visitsRight⟩ := ofRest
        exact ⟨_, by simp, .second fate visitsLeft visitsRight⟩
  · rintro ⟨visited, rfl, visits⟩
    induction visits with
    | halts fate => exact .halts fate
    | goes fate rest induction =>
        rw [List.length_cons, List.length_map]
        exact .goes fate induction
    | first fate found ended induction =>
        rw [List.length_cons, List.length_map]
        exact .first fate induction ended
    | second fate failed rest ofFailed ofRest =>
        rw [List.length_cons, List.length_append, List.length_map, List.length_map]
        exact .second fate ofFailed ofRest

/-- A path explored in vain has no live leaf, and all its nodes are visited. -/
theorem visits_failed (visits : Visits instructions text path visited .exhausted) :
    path.Barren instructions text ∧ path.Lists instructions text (fun _ => True) visited := by
  generalize failed : Halt.exhausted = halt at visits
  induction visits with
  | halts fate =>
      subst failed
      exact ⟨barren_halts fate, lists_halts fate trivial⟩
  | goes fate rest induction =>
      obtain ⟨barren, lists⟩ := induction failed
      constructor
      · refine barren_children (by simp [fate]) ?_
        intro side child below
        rw [fate] at below
        cases side with
        | first =>
            obtain rfl := Option.some.inj below
            exact barren
        | second => contradiction
      · refine lists_first (child_goes fate) trivial lists ?_
        intro address below
        rw [Path.descend?, fate] at below
        contradiction
  | first fate found ended => exact absurd failed.symm ended
  | second fate failedLeft rest ofLeft ofRight =>
      obtain ⟨barrenLeft, listsLeft⟩ := ofLeft rfl
      obtain ⟨barrenRight, listsRight⟩ := ofRight failed
      constructor
      · refine barren_children (by simp [fate]) ?_
        intro side child below
        rw [fate] at below
        cases side with
        | first =>
            obtain rfl := Option.some.inj below
            exact barrenLeft
        | second =>
            obtain rfl := Option.some.inj below
            exact barrenRight
      · exact lists_forks fate trivial listsLeft listsRight

theorem ended_first {child leaf : Path} {address : Address}
    (onFirst : (path.fate instructions text).child? .first = some child)
    (first : child.FirstLive instructions text address leaf halt)
    (lists : child.Lists instructions text address.UpTo visited) :
    ∃ address leaf, path.FirstLive instructions text address leaf halt ∧
      path.Lists instructions text address.UpTo ([] :: visited.map (.cons .first)) := by
  refine ⟨.first :: address, leaf, first_live_first onFirst first, ?_⟩
  refine lists_first onFirst root_up_to ?_ fun _ _ => not_second_up_to_first
  simpa using lists

/-- A path explored with success halts as its first live leaf does, and its nodes are visited up to
there. -/
theorem visits_ended (visits : Visits instructions text path visited halt)
    (live : halt ≠ .exhausted) :
    ∃ address leaf, path.FirstLive instructions text address leaf halt ∧
      path.Lists instructions text address.UpTo visited := by
  induction visits with
  | halts fate => exact ⟨[], _, first_live_root fate live, lists_halts fate root_up_to⟩
  | goes fate rest induction =>
      obtain ⟨address, leaf, first, lists⟩ := induction live
      exact ended_first (child_goes fate) first lists
  | first fate found ended induction =>
      obtain ⟨address, leaf, first, lists⟩ := induction live
      exact ended_first (child_forks fate).1 first lists
  | second fate failed rest ofFailed ofRest =>
      obtain ⟨barren, listsLeft⟩ := visits_failed failed
      obtain ⟨address, leaf, first, lists⟩ := ofRest live
      refine ⟨.second :: address, leaf, first_live_second fate barren first, ?_⟩
      refine lists_forks fate root_up_to ?_ ?_
      · simpa using listsLeft
      · simpa using lists

end

/-! ## Runs -/

def Path.Comes (instructions : Array Instruction) (text : Array Char) (path : Path)
    (checkpoints : List Checkpoint) (steps : Nat) (address : Address) : Prop :=
  ∃ node older, path.descend? instructions text address = some node ∧
    ∀ done, run instructions text steps done (path.state checkpoints) =
      .running (done + steps) (node.state older)

section

variable {instructions : Array Instruction} {text : Array Char} {path : Path} {halt : Halt}
  {visited : List Address} {checkpoints : List Checkpoint} {steps : Nat} {address : Address}

theorem comes_root : path.Comes instructions text checkpoints 0 [] :=
  ⟨path, checkpoints, rfl, fun _ => rfl⟩

theorem comes_below {child : Path} {side : Side} {took : Nat} {older : List Checkpoint}
    (below : (path.fate instructions text).child? side = some child)
    (onChild : ∀ budget done, run instructions text (took + budget) done (path.state checkpoints) =
      run instructions text budget (done + took) (child.state older))
    (comes : child.Comes instructions text older steps address) :
    path.Comes instructions text checkpoints (took + steps) (side :: address) := by
  obtain ⟨node, left, found, reached⟩ := comes
  refine ⟨node, left, (descend_cons below address).trans found, ?_⟩
  intro done
  rw [onChild, reached, Nat.add_assoc]

theorem run_goes {next : Path} (fate : path.fate instructions text = .goes next) (budget done : Nat) :
    run instructions text (1 + budget) done (path.state checkpoints) =
      run instructions text budget (done + 1) (next.state checkpoints) := by
  rw [Nat.add_comm 1, run_succ, step_state, fate, Path.turn, Turn.follow]

theorem run_forks {left right : Path} (fate : path.fate instructions text = .forks left right)
    (budget done : Nat) :
    run instructions text (1 + budget) done (path.state checkpoints) =
      run instructions text budget (done + 1) (left.state (right.checkpoint :: checkpoints)) := by
  rw [Nat.add_comm 1, run_succ, step_state, fate, Path.turn, Turn.follow]

theorem run_second {left right : Path} {tried : Nat}
    (fate : path.fate instructions text = .forks left right)
    (failed : Explores instructions text left tried .exhausted) (budget done : Nat) :
    run instructions text (1 + tried + budget) done (path.state checkpoints) =
      run instructions text budget (done + (1 + tried)) (right.state checkpoints) := by
  rw [Nat.add_assoc, run_forks fate, run_explored failed _ (covers_of_forks checkpoints fate).1,
    turn_to_second fate, Turn.follow, Nat.add_assoc]

theorem comes_first {child : Path} {older : List Checkpoint}
    (below : (path.fate instructions text).child? .first = some child)
    (onChild : ∀ budget done, run instructions text (1 + budget) done (path.state checkpoints) =
      run instructions text budget (done + 1) (child.state older))
    (comes : ∀ steps address, visited[steps]? = some address →
      child.Comes instructions text older steps address)
    (known : ([] :: visited.map (.cons .first))[steps]? = some address) :
    path.Comes instructions text checkpoints steps address := by
  cases steps with
  | zero =>
      obtain rfl := Option.some.inj known
      exact comes_root
  | succ steps =>
      rw [List.getElem?_cons_succ, List.getElem?_map, Option.map_eq_some_iff] at known
      obtain ⟨rest, known, rfl⟩ := known
      rw [Nat.add_comm steps]
      exact comes_below below onChild (comes steps rest known)

/-- With each step the machine is on the next of the nodes. -/
theorem comes_visits (visits : Visits instructions text path visited halt)
    (known : visited[steps]? = some address) :
    path.Comes instructions text checkpoints steps address := by
  induction visits generalizing checkpoints steps address with
  | halts fate =>
      obtain ⟨rfl, rfl⟩ : steps = 0 ∧ address = [] := by
        cases steps <;> simp_all
      exact comes_root
  | goes fate rest induction =>
      exact comes_first (child_goes fate) (run_goes fate) (fun _ _ => induction) known
  | first fate found ended induction =>
      exact comes_first (child_forks fate).1 (run_forks fate) (fun _ _ => induction) known
  | @second path left right ofLeft ofRight halt fate failed rest inLeft inRight =>
      rw [← List.cons_append] at known
      rcases Nat.lt_or_ge steps (ofLeft.length + 1) with before | behind
      · rw [List.getElem?_append_left (by simpa using before)] at known
        exact comes_first (child_forks fate).1 (run_forks fate) (fun _ _ => inLeft) known
      · rw [List.getElem?_append_right (by simpa using behind), List.getElem?_map,
          Option.map_eq_some_iff, List.length_cons, List.length_map] at known
        obtain ⟨rest, known, rfl⟩ := known
        have tried := explores_iff_visits.mpr ⟨ofLeft, rfl, failed⟩
        rw [show steps = 1 + ofLeft.length + (steps - (ofLeft.length + 1)) by omega]
        exact comes_below (child_forks fate).2 (run_second fate tried) (inRight known)

theorem becomes_of_child {child : Path} {side : Side}
    (below : (path.fate instructions text).child? side = some child) :
    path.Becomes instructions text child := by
  cases fate : path.fate instructions text with
  | halts halt =>
      rw [fate] at below
      contradiction
  | goes next =>
      rw [fate] at below
      cases side with
      | first =>
          obtain rfl := Option.some.inj below
          exact .goes fate
      | second => contradiction
  | forks left right =>
      rw [fate] at below
      cases side with
      | first =>
          obtain rfl := Option.some.inj below
          exact .first fate
      | second =>
          obtain rfl := Option.some.inj below
          exact .second fate

theorem leads_of_descend {node : Path}
    (found : path.descend? instructions text address = some node) :
    path.Leads instructions text node := by
  induction address generalizing path with
  | nil =>
      obtain rfl := Option.some.inj found
      exact .refl
  | cons side address induction =>
      obtain ⟨child, below, within⟩ := Option.bind_eq_some_iff.mp found
      exact .head (becomes_of_child below) (induction within)

end

/-- An attempt that ends is a walk through the tree of its paths in their order: up to the first live
leaf, whose result is that of the attempt, or through the whole tree if no leaf is live. -/
theorem attempt_first_live {maxSteps : Option Nat} {instructions : Array Instruction}
    {text : Array Char} {start : Nat}
    (completes : ∀ steps, attempt maxSteps instructions text start ≠ .cut steps) :
    let root : Path := { position := start }
    ∃ visited : List Address,
      (∀ steps address, visited[steps]? = some address →
        root.Comes instructions text [] steps address) ∧
      ((∃ address leaf halt, root.FirstLive instructions text address leaf halt ∧
          root.Lists instructions text address.UpTo visited ∧
          ((fetch instructions leaf.pc = some .finish ∧
              attempt maxSteps instructions text start =
                .found (⟨start, leaf.position⟩ :: leaf.closed.toList) visited.length) ∨
            ((fetch instructions leaf.pc = none ∨
                (fetch instructions leaf.pc = some .closeGroup ∧ leaf.opened = [])) ∧
              attempt maxSteps instructions text start = .missed visited.length))) ∨
        (root.Barren instructions text ∧ root.Lists instructions text (fun _ => True) visited ∧
          attempt maxSteps instructions text start = .missed visited.length)) := by
  intro root
  obtain ⟨budget, same⟩ := exists_budget maxSteps instructions text start
  rw [same] at completes ⊢
  obtain ⟨steps, halt, -, explored, outcome⟩ := explores_of_attempt rfl completes
  obtain ⟨visited, rfl, visits⟩ := explores_iff_visits.mp explored
  rw [outcome]
  refine ⟨visited, fun _ _ => comes_visits visits, ?_⟩
  by_cases failed : halt = .exhausted
  · subst failed
    obtain ⟨barren, lists⟩ := visits_failed visits
    exact .inr ⟨barren, lists, rfl⟩
  · obtain ⟨address, leaf, first, lists⟩ := visits_ended visits failed
    refine .inl ⟨address, leaf, halt, first, lists, ?_⟩
    rcases halts_cases first.ends with exhausted | ⟨rfl, outside⟩ | ⟨rfl, unopened⟩ |
      ⟨rfl, finishes⟩ | ⟨rfl, -⟩
    · exact absurd exhausted failed
    · exact .inr ⟨.inl outside, rfl⟩
    · exact .inr ⟨.inr unopened, rfl⟩
    · exact .inl ⟨finishes, rfl⟩
    · have inText := holds_of_leads inherited_in_text (leads_of_descend first.found)
        ⟨Int.le_refl _, Int.le_max_left _ _⟩
      exact absurd first.ends (not_off_text_of_in_text (Int.natCast_nonneg start) inText)

theorem attempt_first_live_second_target :
    let instructions : Array Instruction :=
      #[.fork 1 5, .openGroup, .char (.exactly 'a'), .closeGroup, .char (.exactly 'a'),
        .openGroup, .char .any, .closeGroup, .finish, .jump 42]
    let root : Path := { position := (0 : Nat) }
    (∀ steps, attempt (some 9) instructions #['a', 'b'] (0 : Nat) ≠ .cut steps) ∧
      ∃ address leaf halt visited,
        root.FirstLive instructions #['a', 'b'] address leaf halt ∧
        root.Lists instructions #['a', 'b'] address.UpTo visited ∧ visited.length = 9 ∧
        leaf.closed.toList = [⟨0, 1⟩] := by
  intro instructions root
  have found : attempt (some 9) instructions #['a', 'b'] (0 : Nat) = .found [⟨0, 1⟩, ⟨0, 1⟩] 9 := rfl
  have completes : ∀ steps, attempt (some 9) instructions #['a', 'b'] (0 : Nat) ≠ .cut steps := by
    rw [found]
    nofun
  refine ⟨completes, ?_⟩
  obtain ⟨visited, -, ⟨address, leaf, halt, first, lists, ⟨-, same⟩ | ⟨-, same⟩⟩ | ⟨-, -, same⟩⟩ :=
    attempt_first_live completes
  · obtain ⟨spans, counted⟩ := Outcome.found.inj (found.symm.trans same)
    exact ⟨address, leaf, halt, visited, first, lists, counted.symm, (List.cons.inj spans).2.symm⟩
  · exact absurd (found.symm.trans same) nofun
  · exact absurd (found.symm.trans same) nofun

end RegexMachine.Machine
