import RegexMachine.CommandLine.Report
import RegexMachine.Proofs.Budgets
import RegexMachine.Proofs.Leftmost

/-!
# What the command answers

An accepted list of arguments has one of three answers. A pattern that is refused leaves its line
alone. Otherwise the texts are reported in order up to the first whose own search is cut off, and
that text keeps the beginning of its block. What is said of a text depends on no other text.
-/

namespace RegexMachine

open RegexMachine.Machine

/-! ## One text -/

namespace Machine

/-- An attempt that is cut off has made as many steps as its limit allows. -/
theorem limit_of_cut {instructions : Array Instruction} {text : Array Char} {start : Int}
    {budget steps : Nat} (cut : attempt (some budget) instructions text start = .cut steps) :
    steps = budget := by
  by_cases ends : ∃ total halt, Explores instructions text { position := start } total halt
  · obtain ⟨total, halt, explored⟩ := ends
    rw [attempt_explored explored] at cut
    split at cut
    · cases halt <;> contradiction
    · exact (Outcome.cut.inj cut).symm
  · rw [attempt_unexplored fun total halt explored => ends ⟨total, halt, explored⟩] at cut
    exact (Outcome.cut.inj cut).symm

end Machine

namespace Engine

section

variable {Error Value Other : Type} {fault : Error → Fault} {events : List Event}

theorem record_ok_bind {value : Value} {next : Value → Job Other} :
    (record fault (.ok value) events >>= next).run =
      ⟨(next value).run.value, events ++ (next value).run.events⟩ := rfl

theorem record_error_bind {error : Error} {next : Value → Job Other} :
    (record fault (.error error) events >>= next).run = ⟨.error (fault error), events ++ []⟩ := rfl

end

/-- The search of a text ends by itself, as a large enough limit does not cut it off. -/
def SearchEnds (program : Program) (text : Array Char) : Prop :=
  ∃ budget, ∀ start steps, Machine.search (some budget) program.instructions text ≠ .cut start steps

section

variable {limits : Limits} {program : Program} {text : Array Char}

theorem uncut_of_search_ends (ends : SearchEnds program text) (start steps : Nat) :
    Machine.search none program.instructions text ≠ .cut start steps := by
  obtain ⟨budget, uncut⟩ := ends
  rw [← search_limit_eq uncut]
  exact uncut start steps

/-- A search answers without a warning, or its limit cuts it off and it warns once. -/
theorem search_answers_or_cut (ends : limits.maxSteps = none → SearchEnds program text) :
    (∃ result, (search limits program text).run.value = .ok result ∧
      ∀ event ∈ (search limits program text).run.events, event.severity = .detail) ∨
    ∃ limit start : Nat, limits.maxSteps = some limit ∧ start < text.size ∧
      (search limits program text).run = ⟨.error (.stepLimit limit), [.cutOff limit start text.size]⟩ := by
  have leftmost := @leftmost_search limits program text
  generalize (search limits program text).run = recorded at leftmost ⊢
  cases leftmost with
  | found inside missed matched =>
      left
      exact ⟨_, rfl, by simp [Event.severity]⟩
  | @cut start steps inside missed raised =>
      right
      have cut := match_at_cut_iff.mp raised
      cases limited : limits.maxSteps with
      | some limit =>
          rw [limited] at cut
          obtain rfl := limit_of_cut cut
          exact ⟨steps, start, rfl, inside, rfl⟩
      | none =>
          have whole : Machine.search none program.instructions text = .cut start steps := by
            apply search_of_ends_at
            refine ⟨Nat.zero_le start, inside, ?_, ?_⟩
            · rw [← limited]
              exact misses_before_iff.mp missed
            · rw [← limited, cut]
              rfl
          exact absurd whole (uncut_of_search_ends (ends limited) start steps)
  | absent missed =>
      left
      exact ⟨_, rfl, by simp [Event.severity]⟩

end

end Engine

namespace CommandLine

open RegexMachine.Engine RegexMachine.Text

/-! ## The lines of the output -/

def bar : String := "--------------------------------"

def spanWords (span : Span) : String :=
  "(" ++ toString span.start ++ ", " ++ toString span.stop ++ ")"

def resultLine : Option Match → String
  | none => "Result: None"
  | some result => "Result: [" ++ ", ".intercalate (result.spans.toList.map spanWords) ++ "]"

def treeLines (tree : Tree) : List String := [bar, "AST: " ++ String.ofList tree.render]

def instructionLine (place : Nat) (instruction : Instruction) : String :=
  (if place < 10 then "0" else "") ++ toString place ++ ": " ++ String.ofList instruction.render

def instructionLines (program : Program) : List String :=
  bar :: program.instructions.toList.mapIdx instructionLine

def heading (text : List Char) : List String := [bar, "Text: " ++ String.ofList text]

def block (text : List Char) (result : Option Match) : List String :=
  heading text ++ [resultLine result]

theorem rule_eq : rule = bar := rfl

theorem of_list_span_text (span : Span) : String.ofList (spanText span) = spanWords span := by
  simp only [spanText, spanWords, String.ofList_append, of_list_decimal, String.ofList_toList]

theorem of_list_intercalate (separator : String) (parts : List (List Char)) :
    String.ofList (separator.toList.intercalate parts) =
      separator.intercalate (parts.map String.ofList) := by
  rw [← String.toList_inj, String.toList_ofList, String.toList_intercalate, List.map_map]
  simp [Function.comp_def]

theorem result_text_eq (result : Option Match) :
    "Result: " ++ String.ofList (resultText result) = resultLine result := by
  cases result with
  | none => rfl
  | some result =>
      have spans : (result.spans.toList.map spanText).map String.ofList =
          result.spans.toList.map spanWords := by
        rw [List.map_map]
        exact List.map_congr_left fun span _ => of_list_span_text span
      rw [resultText, String.ofList_append, String.ofList_append, of_list_intercalate, spans,
        String.ofList_toList, String.ofList_toList, resultLine, ← String.append_assoc,
        ← String.append_assoc]
      rfl

theorem of_list_line (place : Nat) (instruction : Instruction) :
    String.ofList (Program.line place instruction) = instructionLine place instruction := by
  rw [Program.line, String.ofList_append, String.ofList_append, of_list_two_places,
    String.ofList_toList, instructionLine]

theorem of_list_listing (program : Program) :
    program.listing.map String.ofList = program.instructions.toList.mapIdx instructionLine := by
  rw [Program.listing, List.map_map, List.mapIdx_eq_zipIdx_map]
  apply List.map_congr_left
  intro entry _
  exact of_list_line entry.2 entry.1

theorem sections_eq (settings : Settings) (tree : Tree) (program : Program) :
    sections settings tree program =
      (if settings.tree then treeLines tree else []) ++
        (if settings.instructions then instructionLines program else []) := by
  rw [sections, of_list_listing, rule_eq]
  rfl

def cutLines (limit start length : Nat) : List String :=
  ["step limit of " ++ toString limit ++ " reached at offset " ++ toString start ++ " of " ++
      toString length ++ " chars",
    "error: step limit exceeded after " ++ toString limit ++ " steps"]

theorem cut_lines_eq (limit start length : Nat) :
    journalLines false [.cutOff limit start length] ++ [faultLine (.stepLimit limit)] =
      cutLines limit start length := by
  have place : String.ofList (decimal start) = toString start := of_list_decimal start
  have warning : (Event.cutOff limit start length).message =
      "step limit of " ++ toString limit ++ " reached at offset " ++ toString start ++ " of " ++
        toString length ++ " chars" := by
    rw [← place]
    rfl
  have fault : faultLine (.stepLimit limit) =
      "error: step limit exceeded after " ++ toString limit ++ " steps" := by
    show "error: " ++ ("step limit exceeded after " ++ toString limit ++ " steps") =
      "error: " ++ "step limit exceeded after " ++ toString limit ++ " steps"
    rw [String.append_assoc, String.append_assoc, String.append_assoc]
  rw [fault, cutLines, ← warning]
  rfl

/-! ## The pattern -/

structure Prepares (limits : Limits) (pattern : List Char) (tree : Tree) (program : Program) :
    Prop where
  parsed : Pattern.parse limits pattern = .ok tree
  compiled : tree.compile pattern = .ok program

/-- A pattern that cannot be read, or that is read and cannot be compiled, and what is said of it. -/
inductive Rejects (limits : Limits) (pattern : List Char) : String → Prop
  | reading {error : Pattern.SyntaxError} (refused : Pattern.parse limits pattern = .error error) :
      Rejects limits pattern error.cause.message
  | compiling {tree : Tree} {error : CompileError}
      (parsed : Pattern.parse limits pattern = .ok tree)
      (refused : tree.compile pattern = .error error) :
      Rejects limits pattern error.message

section

variable {limits : Limits} {pattern : List Char} {tree : Tree} {program : Program} {message : String}

theorem prepares_or_rejects (limits : Limits) (pattern : List Char) :
    (∃ tree program, Prepares limits pattern tree program) ∨
      ∃ message, Rejects limits pattern message := by
  cases parsed : Pattern.parse limits pattern with
  | error error => exact .inr ⟨_, .reading parsed⟩
  | ok tree =>
      cases compiled : tree.compile pattern with
      | error error => exact .inr ⟨_, .compiling parsed compiled⟩
      | ok program => exact .inl ⟨tree, program, parsed, compiled⟩

theorem prepares_unique {otherTree : Tree} {otherProgram : Program}
    (prepares : Prepares limits pattern tree program)
    (other : Prepares limits pattern otherTree otherProgram) :
    tree = otherTree ∧ program = otherProgram := by
  obtain rfl := Except.ok.inj (prepares.parsed.symm.trans other.parsed)
  exact ⟨rfl, Except.ok.inj (prepares.compiled.symm.trans other.compiled)⟩

theorem not_rejects_of_prepares (prepares : Prepares limits pattern tree program) :
    ¬ Rejects limits pattern message := by
  intro rejects
  cases rejects with
  | reading refused =>
      rw [prepares.parsed] at refused
      contradiction
  | compiling parsed refused =>
      obtain rfl := Except.ok.inj (prepares.parsed.symm.trans parsed)
      rw [prepares.compiled] at refused
      contradiction

theorem journal_lines_details {events : List Event}
    (details : ∀ event ∈ events, event.severity = .detail) : journalLines false events = [] := by
  have unwarned : events.filter (·.severity = .warning) = [] := by
    rw [List.filter_eq_nil_iff]
    intro event member
    simp [details event member]
  simp [journalLines, unwarned]

theorem prepare_of_prepares (prepares : Prepares limits pattern tree program) :
    ∃ events, (prepare limits pattern).run = ⟨.ok (tree, program), events⟩ ∧
      journalLines false events = [] := by
  refine ⟨Event.ofParse pattern (.ok tree) ++ (Event.ofCompile tree pattern (.ok program) ++ []),
    ?_, ?_⟩
  · rw [prepare, Engine.parse, prepares.parsed, record_ok_bind, Engine.compile, prepares.compiled,
      record_ok_bind]
    rfl
  · apply journal_lines_details
    simp [Event.ofParse, Event.ofCompile, Event.severity]

theorem prepare_of_rejects (rejects : Rejects limits pattern message) :
    ∃ fault events, (prepare limits pattern).run = ⟨.error fault, events⟩ ∧
      fault.message = message ∧ journalLines false events = [] := by
  cases rejects with
  | @reading error refused =>
      refine ⟨.pattern error, [], ?_, rfl, rfl⟩
      rw [prepare, Engine.parse, refused, record_error_bind]
      rfl
  | @compiling tree error parsed refused =>
      refine ⟨.compile error, Event.ofParse pattern (.ok tree), ?_, rfl, rfl⟩
      rw [prepare, Engine.parse, parsed, record_ok_bind, Engine.compile, refused, record_error_bind]
      rfl

end

/-! ## The texts -/

section

variable (settings : Settings) (program : Program)

def Answers (text : List Char) (result : Option Match) : Prop :=
  (search settings.limits program text.toArray).run.value = .ok result

def Exceeds (text : List Char) : Prop :=
  ∃ steps, (search settings.limits program text.toArray).run.value = .error (.stepLimit steps)

/-- What is reported of texts, in order. Behind one that exceeds the limit nothing is. -/
inductive Reported : List (List Char) → Response → Prop
  | all {texts : List (List Char)} {results : List (Option Match)} {response : Response}
      (answered : List.Forall₂ (Answers settings program) texts results)
      (code : response.code = 0)
      (output : response.output = (List.zipWith block texts results).flatten)
      (quiet : settings.verbose = false → response.errors = []) :
      Reported texts response
  | cut {earlier later : List (List Char)} {text : List Char} {results : List (Option Match)}
      {limit start : Nat} {response : Response}
      (answered : List.Forall₂ (Answers settings program) earlier results)
      (limited : settings.maxSteps = limit)
      (inside : start < text.length)
      (own : (search settings.limits program text.toArray).run =
        ⟨.error (.stepLimit limit), [.cutOff limit start text.length]⟩)
      (code : response.code = 1)
      (output : response.output = (List.zipWith block earlier results).flatten ++ heading text)
      (quiet : settings.verbose = false → response.errors = cutLines limit start text.length) :
      Reported (earlier ++ text :: later) response

end

section

variable {settings : Settings} {program : Program} {text : List Char} {texts : List (List Char)}
  {result : Option Match} {response : Response}

theorem not_exceeds_of_answers (answers : Answers settings program text result) :
    ¬ Exceeds settings program text := by
  rintro ⟨steps, raised⟩
  rw [Answers, raised] at answers
  contradiction

/-- A text that is answered comes in front of what is reported of the texts behind it. -/
theorem reported_cons {events : List Event} (answers : Answers settings program text result)
    (silent : journalLines false events = []) (reported : Reported settings program texts response) :
    Reported settings program (text :: texts)
      (response.after (block text result) (journalLines settings.verbose events)) := by
  cases reported with
  | all answered code output quiet =>
      refine .all (.cons answers answered) code ?_ ?_
      · simp only [Response.after, output, List.zipWith_cons_cons, List.flatten_cons]
      · intro brief
        simp only [Response.after, brief, silent, quiet brief, List.nil_append]
  | cut answered limited inside own code output quiet =>
      rw [← List.cons_append]
      refine .cut (.cons answers answered) limited inside own code ?_ ?_
      · simp only [Response.after, output, List.zipWith_cons_cons, List.flatten_cons,
          List.append_assoc]
      · intro brief
        simp only [Response.after, brief, silent, quiet brief, List.nil_append]

/-- A text that is cut off ends the report, whatever comes behind it. -/
theorem reported_cut {limit start : Nat} (limited : settings.maxSteps = limit)
    (inside : start < text.length)
    (own : (search settings.limits program text.toArray).run =
      ⟨.error (.stepLimit limit), [.cutOff limit start text.length]⟩) :
    Reported settings program (text :: texts)
      ⟨1, heading text, journalLines settings.verbose [.cutOff limit start text.length] ++
        [faultLine (.stepLimit limit)]⟩ := by
  show Reported settings program ([] ++ text :: texts) _
  refine .cut .nil limited inside own rfl rfl ?_
  intro brief
  rw [brief, cut_lines_eq]

theorem limits_max_steps {limit : Nat} :
    settings.limits.maxSteps = some limit ↔ 0 < limit ∧ settings.maxSteps = limit := by
  unfold Settings.limits
  split
  · next positive =>
      rw [Option.some.injEq]
      omega
  · next negative =>
      constructor
      · intro limited
        contradiction
      · intro positive
        omega

theorem max_steps_of_unlimited (unlimited : settings.limits.maxSteps = none) :
    settings.maxSteps ≤ 0 := by
  by_contra positive
  have limited : settings.limits.maxSteps = some settings.maxSteps.toNat :=
    limits_max_steps.mpr ⟨by omega, by omega⟩
  rw [unlimited] at limited
  contradiction

theorem reported_report_texts
    (ends : settings.maxSteps ≤ 0 → ∀ text ∈ texts, SearchEnds program text.toArray) :
    Reported settings program texts (reportTexts settings settings.limits program texts) := by
  induction texts with
  | nil => exact .all .nil rfl rfl fun _ => rfl
  | cons text texts induction =>
      have later := induction fun unlimited other member =>
        ends unlimited other (List.mem_cons_of_mem text member)
      have own := @search_answers_or_cut settings.limits program text.toArray
        fun unlimited => ends (max_steps_of_unlimited unlimited) text List.mem_cons_self
      rw [reportTexts]
      rcases own with ⟨result, answers, details⟩ | ⟨limit, start, limited, inside, own⟩
      · simp only [answers, result_text_eq]
        exact reported_cons answers (journal_lines_details details) later
      · simp only [own]
        exact reported_cut (limits_max_steps.mp limited).2 inside own

theorem answers_each {results : List (Option Match)}
    (answered : List.Forall₂ (Answers settings program) texts results) :
    ∀ text ∈ texts, ∃ result, Answers settings program text result := by
  have paired : List.Forall₂ (fun text result =>
      (∃ own, Answers settings program text own) ∧ Answers settings program text result)
      texts results := answered.imp fun text result answers => ⟨⟨result, answers⟩, answers⟩
  exact ((List.forall₂_and_left texts results).mp paired).1

/-- The code of a report tells whether some text exceeds the limit. -/
theorem code_of_reported (reported : Reported settings program texts response) :
    (response.code = 1 ↔ ∃ text ∈ texts, Exceeds settings program text) ∧
      (response.code = 0 ↔ ∀ text ∈ texts, ∃ result, Answers settings program text result) := by
  cases reported with
  | all answered code output quiet =>
      have answers := answers_each answered
      refine ⟨?_, fun _ => answers, fun _ => code⟩
      rw [code]
      refine ⟨nofun, ?_⟩
      rintro ⟨text, member, exceeds⟩
      obtain ⟨result, own⟩ := answers text member
      exact absurd exceeds (not_exceeds_of_answers own)
  | @cut earlier later text results limit start _ answered limited inside own code output quiet =>
      have member : text ∈ earlier ++ text :: later := List.mem_append_cons_self
      have exceeds : Exceeds settings program text := ⟨limit, by rw [own]⟩
      refine ⟨⟨fun _ => ⟨text, member, exceeds⟩, fun _ => code⟩, ?_⟩
      rw [code]
      refine ⟨nofun, ?_⟩
      intro answers
      obtain ⟨result, own⟩ := answers text member
      exact absurd exceeds (not_exceeds_of_answers own)

end

/-! ## The whole command -/

/-- What the command answers when it is asked to run. -/
inductive Responds (settings : Settings) (operands : Operands) : Response → Prop
  | rejected {message : String} {response : Response}
      (rejects : Rejects settings.limits operands.pattern message)
      (code : response.code = 2)
      (output : response.output = ["Pattern: " ++ String.ofList operands.pattern])
      (quiet : settings.verbose = false → response.errors = ["error: " ++ message]) :
      Responds settings operands response
  | reported {tree : Tree} {program : Program} {texts response : Response}
      (prepares : Prepares settings.limits operands.pattern tree program)
      (reported : Reported settings program operands.texts texts)
      (code : response.code = texts.code)
      (output : response.output = ("Pattern: " ++ String.ofList operands.pattern) ::
        ((if settings.tree then treeLines tree else []) ++
          (if settings.instructions then instructionLines program else []) ++ texts.output))
      (quiet : settings.verbose = false → response.errors = texts.errors) :
      Responds settings operands response

section

variable {settings : Settings} {operands : Operands} {response : Response}

theorem responds_report
    (ends : settings.maxSteps ≤ 0 → ∀ tree program,
      Prepares settings.limits operands.pattern tree program →
      ∀ text ∈ operands.texts, SearchEnds program text.toArray) :
    Responds settings operands (report settings operands) := by
  rcases prepares_or_rejects settings.limits operands.pattern with
    ⟨tree, program, prepares⟩ | ⟨message, rejects⟩
  · obtain ⟨events, prepared, silent⟩ := prepare_of_prepares prepares
    have reported := @reported_report_texts settings program operands.texts
      fun unlimited => ends unlimited tree program prepares
    simp only [report, prepared]
    refine .reported prepares reported rfl ?_ ?_
    · rw [← sections_eq]
      rfl
    · intro brief
      rw [Response.after, brief, silent, List.nil_append]
  · obtain ⟨fault, events, prepared, said, silent⟩ := prepare_of_rejects rejects
    simp only [report, prepared]
    refine .rejected rejects rfl rfl ?_
    intro brief
    rw [brief, silent, List.nil_append, faultLine, said]

theorem code_of_rejects {message : String} (responds : Responds settings operands response)
    (rejects : Rejects settings.limits operands.pattern message) : response.code = 2 := by
  cases responds with
  | rejected own code output quiet => exact code
  | reported prepares reported code output quiet =>
      exact absurd rejects (not_rejects_of_prepares prepares)

theorem code_of_prepares {tree : Tree} {program : Program}
    (responds : Responds settings operands response)
    (prepares : Prepares settings.limits operands.pattern tree program) :
    (response.code = 1 ↔ ∃ text ∈ operands.texts, Exceeds settings program text) ∧
      (response.code = 0 ↔
        ∀ text ∈ operands.texts, ∃ result, Answers settings program text result) := by
  cases responds with
  | rejected rejects code output quiet => exact absurd rejects (not_rejects_of_prepares prepares)
  | reported own reported code output quiet =>
      obtain ⟨rfl, rfl⟩ := prepares_unique prepares own
      rw [code]
      exact code_of_reported reported

theorem code_le_one_of_reported {program : Program} {texts : List (List Char)}
    (reported : Reported settings program texts response) : response.code ≤ 1 := by
  cases reported with
  | all answered code output quiet => exact code.trans_le (Nat.zero_le 1)
  | cut answered limited inside own code output quiet => exact Nat.le_of_eq code

theorem rejects_iff_code (responds : Responds settings operands response) :
    response.code = 2 ↔ ∃ message, Rejects settings.limits operands.pattern message := by
  constructor
  · intro two
    cases responds with
    | @rejected message _ rejects code output quiet => exact ⟨message, rejects⟩
    | reported prepares reported code output quiet =>
        have most := code_le_one_of_reported reported
        omega
  · rintro ⟨message, rejects⟩
    exact code_of_rejects responds rejects

end

/-- What the command answers when its arguments are accepted, if searches without a limit end by
themselves. The limit is the number given if this is positive. The code is two exactly for a pattern
that is refused. Otherwise it is one exactly if the limit cuts off the search of some text, and zero
exactly if all of them return. What is written is told by `Responds`. -/
theorem respond_outcome {arguments : List (List Char)} {settings : Settings} {operands : Operands}
    (accepted : Request.ofArguments arguments = .ok (.run settings operands))
    (ends : settings.maxSteps ≤ 0 → ∀ tree program,
      Prepares settings.limits operands.pattern tree program →
      ∀ text ∈ operands.texts, SearchEnds program text.toArray) :
    (∀ limit : Nat, settings.limits.maxSteps = some limit ↔
      0 < limit ∧ settings.maxSteps = limit) ∧
    ∃ response, respond arguments = .ok response ∧ Responds settings operands response ∧
      (response.code = 2 ↔ ∃ message, Rejects settings.limits operands.pattern message) ∧
      ∀ tree program, Prepares settings.limits operands.pattern tree program →
        (response.code = 1 ↔ ∃ text ∈ operands.texts, Exceeds settings program text) ∧
        (response.code = 0 ↔
          ∀ text ∈ operands.texts, ∃ result, Answers settings program text result) := by
  have responds := responds_report ends
  refine ⟨fun limit => limits_max_steps, report settings operands, ?_, responds,
    rejects_iff_code responds, ?_⟩
  · rw [respond, accepted]
    rfl
  · intro tree program prepares
    exact code_of_prepares responds prepares

/-- Within five steps the first text is matched and the second one is not, so that the third one is
not reported. Without a limit all texts are. -/
theorem respond_outcome_repeated_letter :
    let tree : Tree := .anchored false (.choice [.sequence [.plus (.char 'a')]]) false
    let program : Program := ⟨#[.char (.exactly 'a'), .fork 0 2, .finish], 0, "a+".toList⟩
    let limited : Settings := { tree := true, instructions := true, maxSteps := 5 }
    let unlimited : Settings := { maxSteps := 0 }
    let operands : Operands := ⟨"a+".toList, ["a", "aaa", "b"].map String.toList⟩
    let stopped : Response := ⟨1,
      ["Pattern: a+",
        bar, "AST: PrefixSuffix(False, Branch([Connect([RepeatPlus(Literal('a'))])]), False)",
        bar, "00: MatchChar(Literal('a'))", "01: Branch(0, 2)", "02: Finish",
        bar, "Text: a", "Result: [(0, 1)]",
        bar, "Text: aaa"],
      ["step limit of 5 reached at offset 0 of 3 chars",
        "error: step limit exceeded after 5 steps"]⟩
    let whole : Response := ⟨0,
      ["Pattern: a+",
        bar, "Text: a", "Result: [(0, 1)]",
        bar, "Text: aaa", "Result: [(0, 3)]",
        bar, "Text: b", "Result: None"], []⟩
    (¬ Exceeds limited program "a".toList ∧ Exceeds limited program "aaa".toList ∧
      respond (["--max-steps", "5", "-i", "--ast", "a+", "a", "aaa", "b"].map String.toList) =
        .ok stopped ∧
      Prepares limited.limits operands.pattern tree program ∧ Responds limited operands stopped) ∧
    (∀ text ∈ operands.texts, SearchEnds program text.toArray) ∧
      respond (["--max-steps=0", "a+", "a", "aaa", "b"].map String.toList) = .ok whole ∧
      Responds unlimited operands whole := by
  intro tree program limited unlimited operands stopped whole
  have texts : ∀ text ∈ operands.texts, text = ['a'] ∨ text = ['a', 'a', 'a'] ∨ text = ['b'] := by
    simp [operands]
  have ends : ∀ text ∈ operands.texts, SearchEnds program text.toArray := by
    intro text member
    refine ⟨8, fun start steps => ?_⟩
    rcases texts text member with rfl | rfl | rfl <;> nofun
  have single : Answers limited program "a".toList (some ⟨#['a'], #[⟨0, 1⟩], 4⟩) := rfl
  have prepares : Prepares unlimited.limits operands.pattern tree program := ⟨rfl, rfl⟩
  have acceptedLimited : Request.ofArguments
      (["--max-steps", "5", "-i", "--ast", "a+", "a", "aaa", "b"].map String.toList) =
      .ok (.run limited operands) := rfl
  have accepted : Request.ofArguments (["--max-steps=0", "a+", "a", "aaa", "b"].map String.toList) =
      .ok (.run unlimited operands) := rfl
  refine ⟨⟨not_exceeds_of_answers single, ⟨5, rfl⟩, rfl, ⟨rfl, rfl⟩, ?_⟩, ends, rfl, ?_⟩
  · obtain ⟨-, response, responded, responds, -⟩ := respond_outcome acceptedLimited
      fun unbounded => absurd unbounded (by decide)
    have written : stopped = response := Except.ok.inj responded
    rwa [written]
  · obtain ⟨-, response, responded, responds, -⟩ := respond_outcome accepted
      fun _ tree own other => by
        obtain ⟨-, rfl⟩ := prepares_unique prepares other
        exact ends
    have written : whole = response := Except.ok.inj responded
    rwa [written]

end CommandLine

end RegexMachine
