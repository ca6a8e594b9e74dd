import RegexMachine.Engine

/-!
A session works step by step. It keeps limits, and the newest tree, program and result, for the
steps that follow. A step that fails leaves the session as it was.
-/

namespace RegexMachine

structure Session where
  limits : Limits := .standard
  tree : Option Tree := none
  program : Option Program := none
  result : Option Match := none
deriving DecidableEq

namespace Session

inductive Action
  | setLimits (maxSteps : Option Int) (maxDepth : Int)
  | parse (pattern : List Char)
  | useTree (tree : Tree)
  | compile (source : List Char)
  /-- Takes a program as it is, well formed or not. -/
  | load (instructions : Array Instruction)
  | validate
  /-- Searches without keeping the result. -/
  | find (text : Array Char)
  | search (text : Array Char)
  | matchAt (text : Array Char) (start : Int)
  | useResult (text : Array Char) (spans : Array Span)
  | span (index : Int)
  | group (index : Int)
  | groups
  | bounds

inductive Answer
  | done
  | limits (limits : Limits)
  | tree (tree : Tree)
  | program (program : Program)
  | found (result : Option Match)
  /-- Only the spans of what was found. -/
  | located (result : Option Match)
  | accepted (result : Match)
  | span (span : Span)
  | text (text : List Char)
  | texts (texts : List (List Char))

def require {Value : Type} (part : Part) : Option Value → Job Value
  | some value => pure value
  | none => throw (.missing part)

def indexed {Value : Type} (result : Except Indexing.IndexError Value) : Job Value :=
  Engine.record .index result []

/-- One step: its answer and the session after it. -/
def perform (session : Session) : Action → Job (Answer × Session)
  | .setLimits maxSteps maxDepth => do
      let limits ← Engine.limits maxSteps maxDepth
      return (.limits limits, { session with limits })
  | .parse pattern => do
      let tree ← Engine.parse session.limits pattern
      return (.tree tree, { session with tree := some tree })
  | .useTree tree => return (.tree tree, { session with tree := some tree })
  | .compile source => do
      let tree ← require .tree session.tree
      let program ← Engine.compile tree source
      return (.program program, { session with program := some program })
  | .load instructions => do
      let program : Program := { instructions }
      return (.program program, { session with program := some program })
  | .validate => do
      let program ← require .program session.program
      Engine.record .compile program.validate []
      return (.done, session)
  | .find text => do
      let program ← require .program session.program
      let result ← Engine.search session.limits program text
      return (.located result, session)
  | .search text => do
      let program ← require .program session.program
      let result ← Engine.search session.limits program text
      return (.found result, { session with result })
  | .matchAt text start => do
      let program ← require .program session.program
      let result ← Engine.matchAt session.limits program text start
      return (.found result, { session with result })
  | .useResult text spans => do
      let result : Match := { text, spans }
      return (.accepted result, { session with result := some result })
  | .span index => do
      let result ← require .result session.result
      return (.span (← indexed (result.span index)), session)
  | .group index => do
      let result ← require .result session.result
      return (.text (← indexed (result.group index)), session)
  | .groups => do
      let result ← require .result session.result
      return (.texts result.groups, session)
  | .bounds => do
      let result ← require .result session.result
      return (.span (← indexed (result.span 0)), session)

def next (session : Session) : Except Fault (Answer × Session) → Session
  | .ok (_, later) => later
  | .error _ => session

def performAll (session : Session) : List Action → Recorded (List (Except Fault Answer))
  | [] => pure []
  | action :: actions => do
      let outcome ← (session.perform action).run
      let answers ← (session.next outcome).performAll actions
      return outcome.map Prod.fst :: answers

end Session

end RegexMachine
