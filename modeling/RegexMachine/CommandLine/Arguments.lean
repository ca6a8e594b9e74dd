import RegexMachine.Text.Numeral
import RegexMachine.Text.Quoted

/-!
The arguments of the command. Each argument is first taken by itself, as an operand, a known switch
or an unknown one; behind the divider `--` all are operands. Then they are read in order. The
operands up to the next switch stand together, and the first such run gives the pattern and all
texts: operands that come later, like unknown switches, are not recognized.

A long switch may be shortened as long as it stays unique, and its value is attached with `=` or is
the next argument. A value that reads like the divider is left out, so that no number is given.
Short switches may be joined, also with one `=` behind the first of them.
-/

namespace RegexMachine.CommandLine

open RegexMachine.Text

inductive Switch
  | help
  | tree
  | instructions
  | maxSteps
  | verbose
deriving DecidableEq, Repr

def switchNames : List (List Char × Switch) :=
  [("-h".toList, .help), ("--help".toList, .help), ("--ast".toList, .tree),
    ("-i".toList, .instructions), ("--instructions".toList, .instructions),
    ("--max-steps".toList, .maxSteps), ("-v".toList, .verbose), ("--verbose".toList, .verbose)]

def Switch.title (switch : Switch) : List Char :=
  ['/'].intercalate ((switchNames.filter fun entry => entry.2 = switch).map Prod.fst)

def named? (name : List Char) : Option Switch :=
  (switchNames.find? fun entry => entry.1 = name).map Prod.snd

inductive UsageError
  | ambiguous (argument : List Char) (candidates : List (List Char))
  | uselessValue (switch : Switch) (value : List Char)
  | missingValue (switch : Switch)
  | notANumber (switch : Switch) (value : List Char)
  | missingOperands
  | unrecognized (arguments : List (List Char))
deriving DecidableEq, Repr

def UsageError.message : UsageError → String
  | ambiguous argument candidates =>
      "ambiguous option: " ++ String.ofList argument ++ " could match " ++
        String.ofList (", ".toList.intercalate candidates)
  | uselessValue switch value =>
      "argument " ++ String.ofList switch.title ++ ": ignored explicit argument " ++
        String.ofList (quoted value)
  | missingValue switch =>
      "argument " ++ String.ofList switch.title ++ ": expected one argument"
  | notANumber switch value =>
      "argument " ++ String.ofList switch.title ++ ": invalid int value: " ++
        String.ofList (quoted value)
  | missingOperands => "the following arguments are required: pattern, texts"
  | unrecognized arguments =>
      "unrecognized arguments: " ++ String.ofList ([' '].intercalate arguments)

inductive Attached
  | nothing
  /-- The value of a long switch, behind an equals sign. -/
  | value (text : List Char)
  /-- The characters behind a short switch, without an equals sign at their beginning. -/
  | joined (text : List Char)
deriving DecidableEq, Repr

inductive Word
  | operand (text : List Char)
  | divider
  | switch (switch : Switch) (attached : Attached)
  | unknown (text : List Char)
deriving DecidableEq, Repr

namespace Word

def splitEquals (argument : List Char) : List Char × Option (List Char) :=
  (argument.takeWhile (· != '='),
    match argument.dropWhile (· != '=') with
    | [] => none
    | _ :: value => some value)

/-- A minus sign, then digits, or a fraction that may lack its whole part; a line may end there. -/
def isNegativeNumber (argument : List Char) : Bool :=
  match argument with
  | '-' :: body =>
      let body := if body.getLast? = some '\n' then body.dropLast else body
      match body.dropWhile isDigit with
      | [] => !body.isEmpty
      | '.' :: fraction => !fraction.isEmpty && fraction.all isDigit
      | _ => false
  | _ => false

def unnamed (argument : List Char) : Word :=
  if isNegativeNumber argument || argument.contains ' ' then operand argument
  else unknown argument

def attach : Option (List Char) → Attached
  | none => .nothing
  | some text => .value text

/-- A shortened long switch. -/
def shortened (argument name : List Char) (value : Option (List Char)) :
    Except UsageError Word :=
  match switchNames.filter fun entry => name.isPrefixOf entry.1 with
  | [] => .ok (unnamed argument)
  | [entry] => .ok (switch entry.2 (attach value))
  | entries => .error (.ambiguous argument (entries.map Prod.fst))

def ofArgument (argument : List Char) : Except UsageError Word :=
  match argument with
  | '-' :: second :: rest =>
      match named? argument with
      | some named => .ok (switch named .nothing)
      | none =>
          let (name, value) := splitEquals argument
          match named? name, value with
          | some named, some text =>
              .ok (switch named (if second = '-' then .value text else .joined text))
          | _, _ =>
              if second = '-' then
                shortened argument name value
              else
                match named? ['-', second] with
                | some named => .ok (switch named (.joined rest))
                | none => .ok (unnamed argument)
  | _ => .ok (operand argument)

def ofArguments : List (List Char) → Except UsageError (List Word)
  | [] => .ok []
  | argument :: rest =>
      if argument = ['-', '-'] then
        .ok (divider :: rest.map operand)
      else do
        let word ← ofArgument argument
        let words ← ofArguments rest
        return word :: words

def text : Word → List Char
  | operand text | unknown text => text
  | divider => ['-', '-']
  | switch _ _ => []

def isDivider : Word → Bool
  | divider => true
  | _ => false

end Word

structure Settings where
  help : Bool := false
  tree : Bool := false
  instructions : Bool := false
  verbose : Bool := false
  maxSteps : Int := 1000000
deriving DecidableEq, Repr

def Settings.turnOn (settings : Settings) : Switch → Settings
  | .help => { settings with help := true }
  | .tree => { settings with tree := true }
  | .instructions => { settings with instructions := true }
  | .verbose => { settings with verbose := true }
  | .maxSteps => settings

structure Operands where
  pattern : List Char
  texts : List (List Char)
deriving DecidableEq, Repr

/-- The pattern and the texts of a run of operands. Of the texts the first that reads like the
divider is left out, and the divider itself always is. -/
def Operands.ofRun (run : List Word) : Option Operands :=
  match run.dropWhile Word.isDivider with
  | [] => none
  | pattern :: rest =>
      some ⟨pattern.text, ((rest.dropWhile Word.isDivider).map Word.text).erase ['-', '-']⟩

structure Reading where
  settings : Settings := {}
  operands : Option Operands := none
  /-- The operands since the last switch. -/
  run : List Word := []
  unrecognized : List (List Char) := []
  /-- A switch whose value is the next argument. -/
  awaiting : Option Switch := none
  /-- The last value of the step limit was left out. -/
  numberless : Bool := false
deriving DecidableEq, Repr

namespace Reading

def endRun (reading : Reading) : Reading :=
  match reading.operands, Operands.ofRun reading.run with
  | none, some operands => { reading with operands := some operands, run := [] }
  | _, _ =>
      { reading with
        unrecognized := reading.unrecognized ++ reading.run.map Word.text
        run := [] }

def setNumber (reading : Reading) (switch : Switch) (value : List Char) :
    Except UsageError Reading :=
  if value = ['-', '-'] then
    .ok { reading with awaiting := none, numberless := true }
  else
    match integer? value with
    | some number =>
        .ok { reading with
          settings := { reading.settings with maxSteps := number }
          awaiting := none
          numberless := false }
    | none => .error (.notANumber switch value)

def turnOn (reading : Reading) (switches : List Switch) : Reading :=
  { reading with settings := switches.foldl Settings.turnOn reading.settings }

/-- Short switches joined behind `switch`. Each character has to name one. -/
def joinedSwitches (switch : Switch) : List Char → Except UsageError (List Switch)
  | [] => .ok []
  | c :: rest =>
      match named? ['-', c] with
      | some next => (joinedSwitches next rest).map (next :: ·)
      | none => .error (.uselessValue switch (c :: rest))

def readSwitch (reading : Reading) (switch : Switch) (attached : Attached) :
    Except UsageError Reading :=
  match switch, attached with
  | .maxSteps, .nothing => .ok { reading with awaiting := some .maxSteps }
  | .maxSteps, .value text | .maxSteps, .joined text => reading.setNumber .maxSteps text
  | switch, .nothing => .ok (reading.turnOn [switch])
  | switch, .value text => .error (.uselessValue switch text)
  | switch, .joined [] => .error (.uselessValue switch [])
  | switch, .joined text => do
      let others ← joinedSwitches switch text
      return reading.turnOn (switch :: others)

/-- Reads one argument. Nothing counts any more once help is asked for. -/
def read (reading : Reading) (word : Word) : Except UsageError Reading :=
  if reading.settings.help then
    .ok reading
  else
    match reading.awaiting, word with
    | some switch, .operand value => reading.setNumber switch value
    | some switch, _ => .error (.missingValue switch)
    | none, .operand _ | none, .divider => .ok { reading with run := reading.run ++ [word] }
    | none, .switch switch attached => reading.endRun.readSwitch switch attached
    | none, .unknown text =>
        let reading := reading.endRun
        .ok { reading with unrecognized := reading.unrecognized ++ [text] }

end Reading

inductive Request
  | help
  | run (settings : Settings) (operands : Operands)
  /-- A run with a step limit that has no number. -/
  | numberless
deriving DecidableEq, Repr

def Reading.request (reading : Reading) : Except UsageError Request :=
  if reading.settings.help then
    .ok .help
  else
    match reading.awaiting with
    | some switch => .error (.missingValue switch)
    | none =>
        let reading := reading.endRun
        match reading.operands, reading.unrecognized with
        | none, _ => .error .missingOperands
        | some operands, [] =>
            .ok (if reading.numberless then .numberless else .run reading.settings operands)
        | some _, unrecognized => .error (.unrecognized unrecognized)

def Request.ofArguments (arguments : List (List Char)) : Except UsageError Request := do
  let words ← Word.ofArguments arguments
  let reading ← words.foldlM Reading.read {}
  reading.request

end RegexMachine.CommandLine
