import RegexMachine.CommandLine.Arguments
import RegexMachine.Engine

/-!
What the command writes. The pattern comes first, then what was asked for about it, then a block for
each text up to the first that exceeds the step limit. Faults and the journal go to a channel of
their own; without the verbose switch only warnings are written there.
-/

namespace RegexMachine.CommandLine

open RegexMachine.Text

structure Response where
  code : Nat := 0
  output : List String := []
  errors : List String := []
deriving DecidableEq, Repr

namespace Response

/-- Lines that come before those of a response. -/
def after (response : Response) (output errors : List String) : Response :=
  { response with output := output ++ response.output, errors := errors ++ response.errors }

def text (lines : List String) : String := String.join (lines.map (· ++ "\n"))

end Response

def rule : String := String.ofList (List.replicate 32 '-')

def journalLines (verbose : Bool) (events : List Event) : List String :=
  if verbose then
    events.map Event.line
  else
    (events.filter (·.severity = .warning)).map Event.message

def faultLine (fault : Fault) : String := "error: " ++ fault.message

def spanText (span : Span) : List Char :=
  "(".toList ++ decimal span.start ++ ", ".toList ++ decimal span.stop ++ ")".toList

def resultText : Option Match → List Char
  | some result =>
      "[".toList ++ ", ".toList.intercalate (result.spans.toList.map spanText) ++ "]".toList
  | none => "None".toList

def sections (settings : Settings) (tree : Tree) (program : Program) : List String :=
  (if settings.tree then [rule, "AST: " ++ String.ofList tree.render] else []) ++
    (if settings.instructions then rule :: program.listing.map String.ofList else [])

def reportTexts (settings : Settings) (limits : Limits) (program : Program) :
    List (List Char) → Response
  | [] => {}
  | text :: texts =>
      let search := (Engine.search limits program text.toArray).run
      let heading := [rule, "Text: " ++ String.ofList text]
      let journal := journalLines settings.verbose search.events
      match search.value with
      | .ok result =>
          (reportTexts settings limits program texts).after
            (heading ++ ["Result: " ++ String.ofList (resultText result)]) journal
      | .error fault => ⟨1, heading, journal ++ [faultLine fault]⟩

def prepare (limits : Limits) (pattern : List Char) : Job (Tree × Program) := do
  let tree ← Engine.parse limits pattern
  let program ← Engine.compile tree pattern
  return (tree, program)

/-- A step limit that is not positive means none. -/
def Settings.limits (settings : Settings) : Limits :=
  { Limits.standard with
    maxSteps := if 0 < settings.maxSteps then some settings.maxSteps.toNat else none }

def report (settings : Settings) (operands : Operands) : Response :=
  let limits := settings.limits
  let prepared := (prepare limits operands.pattern).run
  let heading := ["Pattern: " ++ String.ofList operands.pattern]
  let journal := journalLines settings.verbose prepared.events
  match prepared.value with
  | .ok (tree, program) =>
      (reportTexts settings limits program operands.texts).after
        (heading ++ sections settings tree program) journal
  | .error fault => ⟨2, heading, journal ++ [faultLine fault]⟩

def usage : List String :=
  ["usage: regvm [-h] [--ast] [-i] [--max-steps MAX_STEPS] [-v]",
    "             pattern [texts ...]"]

/-- The lines are broken for a terminal of eighty columns. -/
def help : List String :=
  usage ++
    ["",
      "Compile a regex into VM bytecode and search texts with it.",
      "",
      "positional arguments:",
      "  pattern               the regex pattern",
      "  texts                 texts to search",
      "",
      "options:",
      "  -h, --help            show this help message and exit",
      "  --ast                 print the parsed syntax tree",
      "  -i, --instructions    print the disassembled program",
      "  --max-steps MAX_STEPS",
      "                        VM step budget per start offset (0 or less disables",
      "                        it)",
      "  -v, --verbose         enable debug logging"]

inductive Refusal
  | usage (error : UsageError)
  /-- There is no number to tell whether the step limit is positive. -/
  | numberless
deriving DecidableEq, Repr

namespace Refusal

def code : Refusal → Nat
  | usage _ => 2
  | numberless => 1

def message : Refusal → String
  | usage error => "regvm: error: " ++ error.message
  | numberless => "'>' not supported between instances of 'list' and 'int'"

def lines : Refusal → List String
  | usage error => CommandLine.usage ++ [(usage error).message]
  | numberless => ["TypeError: " ++ numberless.message]

end Refusal

def respond (arguments : List (List Char)) : Except Refusal Response := do
  match ← (Request.ofArguments arguments).mapError .usage with
  | .help => return { output := help }
  | .run settings operands => return report settings operands
  | .numberless => throw .numberless

end RegexMachine.CommandLine
