import RegexMachine.Indexing
import RegexMachine.Limits
import RegexMachine.Pattern.Scan
import RegexMachine.Program.Basic

/-!
All that can keep the engine from answering.
-/

namespace RegexMachine

inductive Part
  | tree
  | program
  | result
deriving DecidableEq, Repr

def Part.name : Part → String
  | .tree => "ast"
  | .program => "program"
  | .result => "result"

inductive Fault
  | limits (error : LimitError)
  | pattern (error : Pattern.SyntaxError)
  | compile (error : CompileError)
  | stepLimit (steps : Nat)
  | index (error : Indexing.IndexError)
  | missing (part : Part)
deriving DecidableEq

def Fault.message : Fault → String
  | .limits error => error.message
  | .pattern error => error.cause.message
  | .compile error => error.message
  | .stepLimit steps => "step limit exceeded after " ++ toString steps ++ " steps"
  | .index error => error.message
  | .missing part => part.name

end RegexMachine
