import Reflection.Text

namespace Reflection.Command

-- The argument so far with one more character.
def extend (argument : Option (List Char)) (c : Char) : Option (List Char) :=
  some (argument.getD [] ++ [c])

-- `quote` is the quote that is open, and `argument` what has been read of an argument.
def splitFrom (quote : Option Char) (argument : Option (List Char)) :
    List Char → List (List Char)
  | [] => argument.toList
  | c :: rest =>
    if c = '\\' ∧ quote ≠ some '\'' then
      match rest with
      | [] => argument.toList
      | escaped :: rest => splitFrom quote (extend argument escaped) rest
    else if quote = some c then splitFrom none argument rest
    else if quote.isSome then splitFrom quote (extend argument c) rest
    else if c = '"' ∨ c = '\'' then splitFrom (some c) (some (argument.getD [])) rest
    else if Text.isBlank c then argument.toList ++ splitFrom none none rest
    else splitFrom none (extend argument c) rest

-- Arguments stand between blanks. Quotes and backslashes take the meaning from blanks, and between
-- single quotes a backslash means itself.
def split (command : List Char) : List (List Char) := splitFrom none none command

end Reflection.Command
