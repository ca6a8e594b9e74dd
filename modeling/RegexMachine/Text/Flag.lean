/-!
The written form of a truth value.
-/

namespace RegexMachine.Text

def flag (value : Bool) : List Char :=
  if value then "True".toList else "False".toList

end RegexMachine.Text
