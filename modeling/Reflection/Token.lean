import Reflection.Span

namespace Reflection

structure Token (κ : Type) where
  kind : κ
  start : Nat
  -- the skipped text between the preceding token and this one
  lead : List Char
  text : List Char
  deriving Repr, DecidableEq

namespace Token

variable {κ : Type}

def stop (token : Token κ) : Nat := token.start + Text.byteLength token.text

def span (token : Token κ) : Span := ⟨token.start, token.stop⟩

-- Where the preceding token ends.
def leadStart (token : Token κ) : Nat := token.start - Text.byteLength token.lead

-- The token with what was skipped in front of it.
def spelled (token : Token κ) : List Char := token.lead ++ token.text

def word (token : Token κ) : String := String.ofList token.text

end Token

-- A piece of text at the front of what is left: a token, or, without a kind, text to skip.
-- It takes one character and `extra` more.
structure Lexeme (κ : Type) where
  kind : Option κ
  extra : Nat

-- The tokens of a text, and the end of the text as a token of its own.
structure Tokens (κ : Type) where
  items : List (Token κ)
  ending : Token κ

namespace Tokens

variable {κ : Type}

def toList (tokens : Tokens κ) : List (Token κ) := tokens.items ++ [tokens.ending]

def cons (token : Token κ) (tokens : Tokens κ) : Tokens κ :=
  { tokens with items := token :: tokens.items }

end Tokens

-- The elements of a quoted literal that can be read, up to the closing quote if there is one:
-- plain characters, and pairs of a backslash and a character other than a line feed. A plain
-- line feed is an element only of a literal that may span lines.
def literalElements (quote : Char) (spansLines : Bool) : List Char → Nat
  | [] => 0
  | '\\' :: c :: rest =>
    if c = '\n' then 0 else literalElements quote spansLines rest + 2
  | c :: rest =>
    if c = quote || c = '\\' || (c = '\n' && !spansLines) then 0
    else literalElements quote spansLines rest + 1

-- A literal after its opening quote. If it is not closed, what could be read of it is an error.
def literalLexeme {κ : Type} (quote : Char) (spansLines : Bool) (literal error : κ)
    (rest : List Char) : Lexeme κ :=
  let elements := literalElements quote spansLines rest
  if (rest.drop elements).head? = some quote then ⟨some literal, elements + 1⟩
  else ⟨some error, elements⟩

variable {κ : Type}

-- Reads on at byte offset `start`, with `lead` skipped since the last token.
def scanFrom (rule : Char → List Char → Lexeme κ) (ending : κ) (start : Nat) (lead : List Char) :
    List Char → Tokens κ
  | [] => ⟨[], ⟨ending, start, lead, []⟩⟩
  | c :: rest =>
    let lexeme := rule c rest
    let text := c :: rest.take lexeme.extra
    let next := start + Text.byteLength text
    match lexeme.kind with
    | none => scanFrom rule ending next (lead ++ text) (rest.drop lexeme.extra)
    | some kind =>
      (scanFrom rule ending next [] (rest.drop lexeme.extra)).cons ⟨kind, start, lead, text⟩
termination_by text => text.length
decreasing_by all_goals simp only [List.length_drop, List.length_cons]; omega

def scan (rule : Char → List Char → Lexeme κ) (ending : κ) (text : List Char) : Tokens κ :=
  scanFrom rule ending 0 [] text

end Reflection
