import RegexMachine.Pattern.Tree
import RegexMachine.Text.Flag
import RegexMachine.Text.Numeral
import RegexMachine.Text.Quoted

/-!
The written form of a tree: a name for each kind of node, then its data and its children in
brackets. Characters stand in it in their quoted form. A node of a foreign kind brings its written
form along.
-/

namespace RegexMachine

namespace Tree

open RegexMachine.Text

mutual

def render : Tree → List Char
  | anchored front body back =>
      "PrefixSuffix(".toList ++ flag front ++ ", ".toList ++ body.render ++ ", ".toList ++
        flag back ++ ")".toList
  | choice alternatives => "Branch([".toList ++ renderAll alternatives ++ "])".toList
  | sequence factors => "Connect([".toList ++ renderAll factors ++ "])".toList
  | group body => "Group(".toList ++ body.render ++ ")".toList
  | star body => "RepeatStar(".toList ++ body.render ++ ")".toList
  | plus body => "RepeatPlus(".toList ++ body.render ++ ")".toList
  | optional body => "Maybe(".toList ++ body.render ++ ")".toList
  | range body least most =>
      "RepeatRange(".toList ++ body.render ++ ", \x7b".toList ++ decimal least ++ ",".toList ++
        decimal most ++ "\x7d)".toList
  | any => "AnyChar()".toList
  | oneOf negated members =>
      "CharClass([".toList ++ (if negated then "^".toList else []) ++ quoted members ++
        "])".toList
  | char c => "Literal(".toList ++ quoted [c] ++ ")".toList
  | foreign written _ => written

def renderAll : List Tree → List Char
  | [] => []
  | [tree] => tree.render
  | tree :: next :: trees => tree.render ++ ", ".toList ++ renderAll (next :: trees)

end

end Tree

end RegexMachine
