import Reflection.Token

namespace Reflection.Metadata

inductive TokenKind where
  | lParen | rParen | lBrace | rBrace | lBracket | rBracket
  | colonColon | colon | comma | eq
  | string | number | ident
  -- any other operator character; it may stand in raw argument text
  | punct
  | error
  | eof
  deriving Repr, DecidableEq

-- The name of a kind in messages.
def TokenKind.describe : TokenKind → String
  | lParen => "'('"
  | rParen => "')'"
  | lBrace => "'\x7b'"
  | rBrace => "'\x7d'"
  | lBracket => "'['"
  | rBracket => "']'"
  | colonColon => "'::'"
  | colon => "':'"
  | comma => "','"
  | eq => "'='"
  | string => "string literal"
  | number => "number"
  | ident => "identifier"
  | punct => "operator"
  | error => "invalid character"
  | eof => "end of annotation"

abbrev Token := Reflection.Token TokenKind

namespace Lexical

def isBlank (c : Char) : Bool :=
  c = ' ' || c = '\t' || c = '\r' || c = '\n' || c = '\x0c'

def isWordPart (c : Char) : Bool := c.isAlphanum || c = '_'

def isNumberPart (c : Char) : Bool := isWordPart c || c = '.' || c = '\''

def number (extra : Nat) (rest : List Char) : Lexeme TokenKind :=
  ⟨some .number, extra + ((rest.drop extra).takeWhile isNumberPart).length⟩

-- The longest token or skipped text at the front.
def lexeme (c : Char) (rest : List Char) : Lexeme TokenKind :=
  if isBlank c then ⟨none, (rest.takeWhile isBlank).length⟩
  else if c.isAlpha || c = '_' then ⟨some .ident, (rest.takeWhile isWordPart).length⟩
  else if c.isDigit then number 0 rest
  else if c = '-' && (rest.head?.any Char.isDigit) then number 1 rest
  else match c, rest with
    | '"', _ => literalLexeme '"' true .string .error rest
    | ':', ':' :: _ => ⟨some .colonColon, 1⟩
    | ':', _ => ⟨some .colon, 0⟩
    | '(', _ => ⟨some .lParen, 0⟩
    | ')', _ => ⟨some .rParen, 0⟩
    | '{', _ => ⟨some .lBrace, 0⟩
    | '}', _ => ⟨some .rBrace, 0⟩
    | '[', _ => ⟨some .lBracket, 0⟩
    | ']', _ => ⟨some .rBracket, 0⟩
    | ',', _ => ⟨some .comma, 0⟩
    | '=', _ => ⟨some .eq, 0⟩
    | _, _ => if "-+*/%^|&!.?<>~#@".toList.contains c then ⟨some .punct, 0⟩ else ⟨some .error, 0⟩

end Lexical

def scan (text : List Char) : Tokens TokenKind := Reflection.scan Lexical.lexeme .eof text

-- The tokens of an annotation, with the end of the text as the last one.
def tokenize (text : List Char) : List Token := (scan text).toList

end Reflection.Metadata
