import Mathlib.Data.Finset.Prod
import RegexMachine.Proofs.Paths

/-!
# Attempts without a step limit

Without a limit the machine is run in bursts. Their number leaves room for every attempt that ends
by itself: where a path comes back to an instruction and an offset with no fewer groups open than
before, it can do again what it did, so that the attempt never ends. On the paths of an attempt that
ends there are thus at most as many groups open as there are places, every place recurs with fewer
groups only, and a path has at most the square of the number of places. An attempt explores a binary
tree of that height.
-/

namespace RegexMachine.Machine

variable {instructions : Array Instruction} {text : Array Char} {start : Int}

/-! ## Bursts -/

theorem burst_eq_advance (exponent : Nat) (progress : Progress) :
    burst instructions text exponent progress =
      progress.advance instructions text (2 ^ exponent) := by
  induction exponent generalizing progress with
  | zero => cases progress <;> rfl
  | succ exponent induction =>
      cases progress with
      | halted steps halt => rfl
      | running steps state =>
          rw [burst, induction, induction, pow_succ, Nat.mul_two, advance_add]

theorem bursts_eq_advance (count exponent : Nat) (progress : Progress) :
    bursts instructions text count exponent progress =
      progress.advance instructions text (2 ^ exponent * (2 ^ count - 1)) := by
  induction count generalizing exponent progress with
  | zero => cases progress <;> simp [bursts, Progress.advance, run]
  | succ count induction =>
      cases progress with
      | halted steps halt => rfl
      | running steps state =>
          have total : 2 ^ exponent * (2 ^ (count + 1) - 1) =
              2 ^ exponent + 2 ^ (exponent + 1) * (2 ^ count - 1) := by
            have positive : 0 < 2 ^ count := Nat.two_pow_pos count
            have counted : 2 ^ (count + 1) - 1 = 1 + 2 * (2 ^ count - 1) := by
              rw [pow_succ]
              omega
            rw [counted, pow_succ, Nat.mul_add, Nat.mul_one, Nat.mul_assoc]
          rw [bursts, induction, burst_eq_advance, total, advance_add]

/-! ## Paths with fewer open groups -/

def Path.Below (lower upper : Path) : Prop :=
  lower.pc = upper.pc ∧ lower.position = upper.position ∧
    lower.opened.length ≤ upper.opened.length

/-- A path below another goes the same way, unless it has no group left to close. -/
inductive Fate.Below : Fate → Fate → Prop
  | unopened {upper} : Fate.Below (.halts .unopened) upper
  | halts {lower upper} (failed : lower = .exhausted → upper = .exhausted) :
      Fate.Below (.halts lower) (.halts upper)
  | goes {lower upper} (below : lower.Below upper) : Fate.Below (.goes lower) (.goes upper)
  | forks {lowerLeft lowerRight upperLeft upperRight}
      (left : lowerLeft.Below upperLeft) (right : lowerRight.Below upperRight) :
      Fate.Below (.forks lowerLeft lowerRight) (.forks upperLeft upperRight)

theorem meet_below {lower upper : Path} (below : lower.Below upper) (instruction : Instruction) :
    (lower.meet text instruction).Below (upper.meet text instruction) := by
  obtain ⟨samePc, samePosition, fewer⟩ := below
  cases instruction with
  | char test =>
      simp only [Path.meet, Path.take, samePosition]
      split
      · split
        · exact .halts id
        · split
          · exact .goes ⟨by simp [samePc], by simp, fewer⟩
          · exact .halts id
      · exact .halts id
  | jump target => exact .goes ⟨rfl, samePosition, fewer⟩
  | fork first second => exact .forks ⟨rfl, samePosition, fewer⟩ ⟨rfl, samePosition, fewer⟩
  | anchor place =>
      have same : lower.atAnchor text place = upper.atAnchor text place := by
        cases place <;> simp [Path.atAnchor, samePosition]
      simp only [Path.meet, same]
      split
      · exact .goes ⟨by simp [samePc], samePosition, fewer⟩
      · exact .halts id
  | openGroup =>
      exact .goes ⟨by simp [samePc], samePosition, by simpa using fewer⟩
  | closeGroup =>
      simp only [Path.meet, Path.close]
      cases lowerOpened : lower.opened with
      | nil => exact .unopened
      | cons lowerStart lowerRest =>
          cases upperOpened : upper.opened with
          | nil => simp [lowerOpened, upperOpened] at fewer
          | cons upperStart upperRest =>
              refine .goes ⟨by simp [samePc], samePosition, ?_⟩
              simpa [lowerOpened, upperOpened] using fewer
  | finish => exact .halts (by intro matched; contradiction)

theorem fate_below (instructions : Array Instruction) (text : Array Char) {lower upper : Path}
    (below : lower.Below upper) :
    (lower.fate instructions text).Below (upper.fate instructions text) := by
  simp only [Path.fate, below.1]
  cases fetch instructions upper.pc with
  | none => exact .halts id
  | some instruction => exact meet_below below instruction

theorem halts_below {lower upper : Path} {halt : Halt} (below : lower.Below upper)
    (fate : upper.fate instructions text = .halts halt) :
    ∃ lowerHalt, lower.fate instructions text = .halts lowerHalt ∧
      (lowerHalt = .exhausted → halt = .exhausted) := by
  have fates := fate_below instructions text below
  rw [fate] at fates
  generalize lower.fate instructions text = reached at fates
  cases fates with
  | unopened => exact ⟨_, rfl, by intro failed; contradiction⟩
  | halts failed => exact ⟨_, rfl, failed⟩

theorem goes_below {lower upper next : Path} (below : lower.Below upper)
    (fate : upper.fate instructions text = .goes next) :
    lower.fate instructions text = .halts .unopened ∨
      ∃ lowerNext, lower.fate instructions text = .goes lowerNext ∧ lowerNext.Below next := by
  have fates := fate_below instructions text below
  rw [fate] at fates
  generalize lower.fate instructions text = reached at fates
  cases fates with
  | unopened => exact .inl rfl
  | goes nextBelow => exact .inr ⟨_, rfl, nextBelow⟩

theorem forks_below {lower upper left right : Path} (below : lower.Below upper)
    (fate : upper.fate instructions text = .forks left right) :
    lower.fate instructions text = .halts .unopened ∨
      ∃ lowerLeft lowerRight, lower.fate instructions text = .forks lowerLeft lowerRight ∧
        lowerLeft.Below left ∧ lowerRight.Below right := by
  have fates := fate_below instructions text below
  rw [fate] at fates
  generalize lower.fate instructions text = reached at fates
  cases fates with
  | unopened => exact .inl rfl
  | forks ofLeft ofRight => exact .inr ⟨_, _, rfl, ofLeft, ofRight⟩

/-- With fewer groups open a path is explored in no more steps. It may come to an end that the
other does not, but it fails only where the other does. -/
theorem explores_below {lower upper : Path} {steps : Nat} {halt : Halt}
    (explored : Explores instructions text upper steps halt) (below : lower.Below upper) :
    ∃ lowerSteps lowerHalt, lowerSteps ≤ steps ∧
      Explores instructions text lower lowerSteps lowerHalt ∧
      (lowerHalt = .exhausted → halt = .exhausted) := by
  induction explored generalizing lower with
  | halts fate =>
      obtain ⟨lowerHalt, lowerFate, failed⟩ := halts_below below fate
      exact ⟨1, lowerHalt, Nat.le_refl 1, .halts lowerFate, failed⟩
  | goes fate rest induction =>
      rcases goes_below below fate with unopened | ⟨lowerNext, lowerFate, nextBelow⟩
      · exact ⟨1, _, by omega, .halts unopened, by intro failed; contradiction⟩
      · obtain ⟨lowerSteps, lowerHalt, bound, lowerRest, failed⟩ := induction nextBelow
        exact ⟨lowerSteps + 1, lowerHalt, by omega, .goes lowerFate lowerRest, failed⟩
  | first fate found ended induction =>
      rcases forks_below below fate with unopened | ⟨_, _, lowerFate, left, right⟩
      · exact ⟨1, _, by omega, .halts unopened, by intro failed; contradiction⟩
      · obtain ⟨lowerSteps, lowerHalt, bound, lowerFound, failed⟩ := induction left
        have lowerEnded : lowerHalt ≠ .exhausted := fun exhausted => ended (failed exhausted)
        exact ⟨lowerSteps + 1, lowerHalt, by omega, .first lowerFate lowerFound lowerEnded, failed⟩
  | second fate failed rest failedInduction induction =>
      rcases forks_below below fate with unopened | ⟨_, _, lowerFate, left, right⟩
      · exact ⟨1, _, by omega, .halts unopened, by intro failed; contradiction⟩
      · obtain ⟨leftSteps, leftHalt, leftBound, leftFound, -⟩ := failedInduction left
        obtain ⟨rightSteps, rightHalt, rightBound, rightFound, rightFailed⟩ := induction right
        by_cases exhausted : leftHalt = .exhausted
        · subst leftHalt
          exact ⟨leftSteps + rightSteps + 1, rightHalt, by omega,
            .second lowerFate leftFound rightFound, rightFailed⟩
        · exact ⟨leftSteps + 1, leftHalt, by omega, .first lowerFate leftFound exhausted,
            fun failed => absurd failed exhausted⟩

/-! ## Chains of paths -/

def Path.place (path : Path) : Int × Int := (path.pc, path.position)

def places (instructions : Array Instruction) (text : Array Char) (start : Int) :
    Finset (Int × Int) :=
  (Finset.range instructions.size ×ˢ Finset.range ((text.size - start).toNat + 1)).image
    fun place => ((place.1 : Int), start + place.2)

theorem mem_places {pc position : Int} (inProgram : 0 ≤ pc ∧ pc < instructions.size)
    (inText : start ≤ position ∧ position ≤ max start text.size) :
    (pc, position) ∈ places instructions text start := by
  apply Finset.mem_image.mpr
  refine ⟨(pc.toNat, (position - start).toNat), ?_, ?_⟩
  · rw [Finset.mem_product, Finset.mem_range, Finset.mem_range]
    omega
  · apply Prod.ext
    · exact Int.toNat_of_nonneg inProgram.1
    · show start + ((position - start).toNat : Int) = position
      omega

theorem card_places : (places instructions text start).card = placeCount instructions text start := by
  have injective : Function.Injective fun place : Nat × Nat => ((place.1 : Int), start + place.2) := by
    intro left right same
    obtain ⟨samePc, samePosition⟩ := Prod.mk.inj same
    apply Prod.ext
    · exact Int.ofNat.inj samePc
    · omega
  rw [places, Finset.card_image_of_injective _ injective, Finset.card_product, Finset.card_range,
    Finset.card_range, placeCount]

/-- A path and those it came from, the last of them first: none of them is above an older one, and
no step opens more than one group. -/
inductive Chain (instructions : Array Instruction) (text : Array Char) (start : Int) :
    List Path → Prop
  | nil : Chain instructions text start []
  | cons {path earlier} (inside : path.place ∈ places instructions text start)
      (fresh : ∀ older ∈ earlier, ¬ older.Below path)
      (depth : path.opened = [] ∨
        ∃ older ∈ earlier, path.opened.length ≤ older.opened.length + 1)
      (rest : Chain instructions text start earlier) :
      Chain instructions text start (path :: earlier)

theorem chain_places {chain : List Path} (valid : Chain instructions text start chain) :
    (chain.map Path.place).toFinset ⊆ places instructions text start := by
  intro place member
  obtain ⟨path, inChain, rfl⟩ := List.mem_map.mp (List.mem_toFinset.mp member)
  clear member
  induction valid with
  | nil => contradiction
  | cons inside fresh depth rest induction =>
      rcases List.mem_cons.mp inChain with rfl | older
      · exact inside
      · exact induction older

/-- A group that is opened for the first time is opened at a new place, or else the older path at
that place would have fewer groups open. -/
theorem chain_depth {chain : List Path} (valid : Chain instructions text start chain) :
    ∀ path ∈ chain, path.opened.length < (chain.map Path.place).toFinset.card := by
  induction valid with
  | nil => simp
  | @cons newest earlier inside fresh depth rest induction =>
      have grown : (earlier.map Path.place).toFinset.card ≤
          ((newest :: earlier).map Path.place).toFinset.card := by
        apply Finset.card_le_card
        intro place member
        simp only [List.map_cons, List.toFinset_cons]
        exact Finset.mem_insert_of_mem member
      intro path member
      rcases List.mem_cons.mp member with rfl | older
      · by_cases visited : path.place ∈ (earlier.map Path.place).toFinset
        · obtain ⟨older, inEarlier, samePlace⟩ := List.mem_map.mp (List.mem_toFinset.mp visited)
          have deeper : path.opened.length < older.opened.length := by
            apply Nat.lt_of_not_le
            intro fewer
            obtain ⟨samePc, samePosition⟩ := Prod.mk.inj samePlace
            exact fresh older inEarlier ⟨samePc, samePosition, fewer⟩
          have bound := induction older inEarlier
          omega
        · have counted : ((path :: earlier).map Path.place).toFinset.card =
              (earlier.map Path.place).toFinset.card + 1 := by
            simp only [List.map_cons, List.toFinset_cons]
            exact Finset.card_insert_of_notMem visited
          rcases depth with none | ⟨older, inEarlier, nearly⟩
          · rw [none, counted]
            exact Nat.succ_pos _
          · have bound := induction older inEarlier
            omega
      · exact Nat.lt_of_lt_of_le (induction path older) grown

/-- What no two paths of a chain have in common. -/
def Path.visit (path : Path) : (Int × Int) × Nat := (path.place, path.opened.length)

theorem chain_visits_nodup {chain : List Path} (valid : Chain instructions text start chain) :
    (chain.map Path.visit).Nodup := by
  induction valid with
  | nil => exact List.nodup_nil
  | @cons newest earlier inside fresh depth rest induction =>
      refine List.nodup_cons.mpr ⟨?_, induction⟩
      intro member
      obtain ⟨older, inEarlier, same⟩ := List.mem_map.mp member
      obtain ⟨samePlace, sameDepth⟩ := Prod.mk.inj same
      obtain ⟨samePc, samePosition⟩ := Prod.mk.inj samePlace
      exact fresh older inEarlier ⟨samePc, samePosition, sameDepth.le⟩

theorem chain_length {chain : List Path} (valid : Chain instructions text start chain) :
    chain.length ≤ placeCount instructions text start * placeCount instructions text start := by
  have bounded : (chain.map Path.visit).toFinset ⊆ places instructions text start ×ˢ
      Finset.range (placeCount instructions text start) := by
    intro pair member
    obtain ⟨path, inChain, rfl⟩ := List.mem_map.mp (List.mem_toFinset.mp member)
    have visited : path.place ∈ (chain.map Path.place).toFinset :=
      List.mem_toFinset.mpr (List.mem_map_of_mem inChain)
    have inPlaces := chain_places valid
    have depth := Nat.lt_of_lt_of_le (chain_depth valid path inChain)
      (Finset.card_le_card inPlaces)
    rw [card_places] at depth
    exact Finset.mem_product.mpr ⟨inPlaces visited, Finset.mem_range.mpr depth⟩
  calc
    chain.length = (chain.map Path.visit).toFinset.card := by
      rw [List.toFinset_card_of_nodup (chain_visits_nodup valid), List.length_map]
    _ ≤ (places instructions text start ×ˢ
        Finset.range (placeCount instructions text start)).card := Finset.card_le_card bounded
    _ = placeCount instructions text start * placeCount instructions text start := by
      rw [Finset.card_product, card_places, Finset.card_range]

/-! ## How long an attempt can be that ends -/

def InText (text : Array Char) (start : Int) (path : Path) : Prop :=
  start ≤ path.position ∧ path.position ≤ max start text.size

theorem next_of_goes {path next : Path} (fate : path.fate instructions text = .goes next)
    (inText : InText text start path) :
    InText text start next ∧ next.opened.length ≤ path.opened.length + 1 := by
  obtain ⟨instruction, -, meets⟩ := meets_of_fate fate (by intro strayed; contradiction)
  cases meets with
  | taken before read accepted =>
      refine ⟨?_, Nat.le_succ _⟩
      unfold InText at inText ⊢
      simp only
      omega
  | jump target => exact ⟨inText, Nat.le_succ _⟩
  | anchored holds => exact ⟨inText, Nat.le_succ _⟩
  | opened => exact ⟨inText, Nat.le_refl _⟩
  | @closed began opened known =>
      refine ⟨inText, ?_⟩
      rw [known, List.length_cons]
      exact Nat.le_succ_of_le (Nat.le_succ _)

theorem next_of_forks {path left right : Path}
    (fate : path.fate instructions text = .forks left right) (inText : InText text start path) :
    (InText text start left ∧ left.opened.length ≤ path.opened.length + 1) ∧
      InText text start right ∧ right.opened.length ≤ path.opened.length + 1 := by
  obtain ⟨⟨first, rfl⟩, second, rfl⟩ := same_of_forks fate
  exact ⟨⟨inText, Nat.le_succ _⟩, inText, Nat.le_succ _⟩

/-- A path that is to be explored in `steps` steps, after all of `earlier`. -/
structure Ancestry (instructions : Array Instruction) (text : Array Char) (start : Int)
    (earlier : List Path) (path : Path) (steps : Nat) : Prop where
  chain : Chain instructions text start earlier
  inText : InText text start path
  depth : path.opened = [] ∨ ∃ older ∈ earlier, path.opened.length ≤ older.opened.length + 1
  slower : ∀ older ∈ earlier, ∃ more last, Explores instructions text older more last ∧ steps < more

theorem ancestry_chain {earlier : List Path} {path : Path} {steps : Nat} {halt : Halt}
    (ancestry : Ancestry instructions text start earlier path steps)
    (explored : Explores instructions text path steps halt)
    (fetched : fetch instructions path.pc ≠ none) :
    Chain instructions text start (path :: earlier) := by
  refine .cons ?_ ?_ ancestry.depth ancestry.chain
  · exact mem_places (fetch_ne_none_iff.mp fetched) ancestry.inText
  · intro older inEarlier below
    -- an older path below this one would be explored no more slowly, but it takes longer
    obtain ⟨more, last, olderExplored, slower⟩ := ancestry.slower older inEarlier
    obtain ⟨fewer, fewerLast, bound, again, -⟩ := explores_below explored below
    have same := (explores_unique olderExplored again).1
    omega

theorem ancestry_extend {earlier : List Path} {path next : Path} {steps nextSteps : Nat}
    {halt : Halt} (ancestry : Ancestry instructions text start earlier path steps)
    (explored : Explores instructions text path steps halt)
    (fetched : fetch instructions path.pc ≠ none) (inText : InText text start next)
    (depth : next.opened.length ≤ path.opened.length + 1) (fewer : nextSteps < steps) :
    Ancestry instructions text start (path :: earlier) next nextSteps := by
  refine ⟨ancestry_chain ancestry explored fetched, inText, ?_, ?_⟩
  · exact .inr ⟨path, List.mem_cons_self, depth⟩
  · intro older member
    rcases List.mem_cons.mp member with rfl | inEarlier
    · exact ⟨steps, halt, explored, fewer⟩
    · obtain ⟨more, last, olderExplored, slower⟩ := ancestry.slower older inEarlier
      exact ⟨more, last, olderExplored, Nat.lt_trans fewer slower⟩

theorem fetched_of_fate (text : Array Char) {path : Path}
    (runs : path.fate instructions text ≠ .halts .strayed) :
    fetch instructions path.pc ≠ none := by
  intro outside
  apply runs
  simp only [Path.fate, outside]

theorem level_below {most depth left right : Nat} (room : depth + 1 ≤ most)
    (leftBound : left < 2 ^ (most + 1 - (depth + 1)))
    (rightBound : right < 2 ^ (most + 1 - (depth + 1))) :
    left + right + 1 < 2 ^ (most + 1 - depth) := by
  rw [show most + 1 - depth = most + 1 - (depth + 1) + 1 by omega, pow_succ]
  omega

/-- The tree below a path has no more levels than the chain of its ancestors can still grow by. -/
theorem explores_steps_lt {earlier : List Path} {path : Path} {steps : Nat} {halt : Halt}
    (explored : Explores instructions text path steps halt)
    (ancestry : Ancestry instructions text start earlier path steps) :
    steps < 2 ^ (placeCount instructions text start * placeCount instructions text start + 1 -
      earlier.length) := by
  induction explored generalizing earlier with
  | halts fate =>
      have room := chain_length ancestry.chain
      apply Nat.one_lt_two_pow
      omega
  | @goes path next steps halt fate rest induction =>
      have explored := Explores.goes fate rest
      have fetched := fetched_of_fate text (by rw [fate]; exact Fate.noConfusion)
      have room := chain_length (ancestry_chain ancestry explored fetched)
      obtain ⟨inText, depth⟩ := next_of_goes fate ancestry.inText
      have below := induction
        (ancestry_extend ancestry explored fetched inText depth (Nat.lt_succ_self steps))
      exact level_below room below (Nat.two_pow_pos _)
  | @first path left right steps halt fate found ended induction =>
      have explored := Explores.first fate found ended
      have fetched := fetched_of_fate text (by rw [fate]; exact Fate.noConfusion)
      have room := chain_length (ancestry_chain ancestry explored fetched)
      obtain ⟨inText, depth⟩ := (next_of_forks fate ancestry.inText).1
      have below := induction
        (ancestry_extend ancestry explored fetched inText depth (Nat.lt_succ_self steps))
      exact level_below room below (Nat.two_pow_pos _)
  | @second path left right leftSteps rightSteps halt fate failed rest failedInduction induction =>
      have explored := Explores.second fate failed rest
      have fetched := fetched_of_fate text (by rw [fate]; exact Fate.noConfusion)
      have room := chain_length (ancestry_chain ancestry explored fetched)
      obtain ⟨⟨leftInText, leftDepth⟩, rightInText, rightDepth⟩ :=
        next_of_forks fate ancestry.inText
      have leftBelow := failedInduction
        (ancestry_extend ancestry explored fetched leftInText leftDepth (by omega))
      have rightBelow := induction
        (ancestry_extend ancestry explored fetched rightInText rightDepth (by omega))
      exact level_below room leftBelow rightBelow

theorem attempt_unlimited (instructions : Array Instruction) (text : Array Char) (start : Int) :
    attempt none instructions text start =
      attempt
        (some (2 ^ (placeCount instructions text start * placeCount instructions text start + 1) - 1))
        instructions text start := by
  simp only [attempt]
  rw [bursts_eq_advance, pow_zero, Nat.one_mul]
  rfl

/-- An attempt without a limit is one with a limit that is high enough. -/
theorem exists_budget (maxSteps : Option Nat) (instructions : Array Instruction) (text : Array Char)
    (start : Int) :
    ∃ budget, attempt maxSteps instructions text start =
      attempt (some budget) instructions text start := by
  cases maxSteps with
  | none => exact ⟨_, attempt_unlimited instructions text start⟩
  | some budget => exact ⟨budget, rfl⟩

theorem attempt_unlimited_explored {steps : Nat} {halt : Halt}
    (explored : Explores instructions text { position := start } steps halt) :
    attempt none instructions text start = (Progress.halted steps halt).outcome start := by
  have ancestry : Ancestry instructions text start [] { position := start } steps :=
    ⟨.nil, ⟨Int.le_refl _, Int.le_max_left _ _⟩, .inl rfl, by simp⟩
  have bound := explores_steps_lt explored ancestry
  rw [List.length_nil, Nat.sub_zero] at bound
  rw [attempt_unlimited, attempt_explored explored, if_pos (by omega)]

/-- Where an attempt ends within some step limit, it ends in the same way without one. -/
theorem attempt_unlimited_eq {budget : Nat}
    (uncut : ∀ steps, attempt (some budget) instructions text start ≠ .cut steps) :
    attempt none instructions text start = attempt (some budget) instructions text start := by
  obtain ⟨steps, halt, -, explored, same⟩ := explores_of_attempt rfl uncut
  rw [attempt_unlimited_explored explored, same]

/-- Whatever the limit is, an attempt that is not cut off explores the path from its offset, and
explores it within the limit if there is one. -/
theorem explores_of_uncut {limit : Option Nat}
    (uncut : ∀ steps, attempt limit instructions text start ≠ .cut steps) :
    ∃ steps halt, (∀ budget ∈ limit, steps ≤ budget) ∧
      Explores instructions text { position := start } steps halt ∧
      attempt limit instructions text start = (Progress.halted steps halt).outcome start := by
  cases limit with
  | none =>
      rw [attempt_unlimited] at uncut ⊢
      obtain ⟨steps, halt, -, explored, same⟩ := explores_of_attempt rfl uncut
      exact ⟨steps, halt, by simp, explored, same⟩
  | some budget =>
      obtain ⟨steps, halt, enough, explored, same⟩ := explores_of_attempt rfl uncut
      exact ⟨steps, halt, by simpa using enough, explored, same⟩

theorem attempt_of_explores {limit : Option Nat} {steps : Nat} {halt : Halt}
    (explored : Explores instructions text { position := start } steps halt)
    (within : ∀ budget ∈ limit, steps ≤ budget) :
    attempt limit instructions text start = (Progress.halted steps halt).outcome start := by
  cases limit with
  | none => exact attempt_unlimited_explored explored
  | some budget => rw [attempt_explored explored, if_pos (within budget rfl)]

end RegexMachine.Machine
