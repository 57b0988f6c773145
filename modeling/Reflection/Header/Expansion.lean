import Reflection.Header.Scopes

namespace Reflection.Header

-- Macro names with their replacements.
abbrev Macros := List (String × String)

def Macros.lookup (macros : Macros) (name : List Char) : Option (List Char) :=
  (List.find? (fun entry => entry.1.toList == name) macros).map fun entry => entry.2.toList

def replacement (macros : Macros) (token : Token) : List Char :=
  if token.kind = .ident then (macros.lookup token.text).getD token.text else token.text

-- Only identifiers are replaced. What stands between the tokens is kept, and replacements are not
-- expanded again.
def expandTokens (macros : Macros) (tokens : Tokens TokenKind) : List Char :=
  (tokens.items.flatMap fun token => token.lead ++ replacement macros token) ++ tokens.ending.lead

def expand (macros : Macros) (text : List Char) : List Char := expandTokens macros (scan text)

structure ParseOptions where
  mode : ErrorMode
  macros : Macros

end Reflection.Header
