import RegexMachine.CommandLine.Report

/-!
The command: it hands its arguments on, and writes the response to the two output channels.
-/

open RegexMachine.CommandLine

def main (arguments : List String) : IO UInt32 := do
  match respond (arguments.map String.toList) with
  | .ok response =>
      IO.print (Response.text response.output)
      IO.eprint (Response.text response.errors)
      return response.code.toUInt32
  | .error refusal =>
      IO.eprint (Response.text refusal.lines)
      return refusal.code.toUInt32
