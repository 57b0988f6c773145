import Reflection.Token

namespace Reflection.Header

inductive TokenKind where
  | namespaceKw | classKw | structKw | unionKw | enumKw | staticKw | templateKw | typedefKw
  | usingKw | friendKw | staticAssertKw | publicKw | protectedKw | privateKw | operatorKw
  | externKw | inlineKw | alignasKw
  | docComment
  | attrOpen
  | lParen | rParen | lBrace | rBrace | lBracket | rBracket | lt | gt
  | colonColon | colon | semicolon | comma | eq | tilde | star | amp | punct | ellipsis | arrow
  | number | string | char
  | ident
  | error
  | eof
  deriving Repr, DecidableEq

namespace TokenKind

def keywords : List (String × TokenKind) :=
  [("namespace", .namespaceKw), ("class", .classKw), ("struct", .structKw), ("union", .unionKw),
   ("enum", .enumKw), ("static", .staticKw), ("template", .templateKw), ("typedef", .typedefKw),
   ("using", .usingKw), ("friend", .friendKw), ("static_assert", .staticAssertKw),
   ("public", .publicKw), ("protected", .protectedKw), ("private", .privateKw),
   ("operator", .operatorKw), ("extern", .externKw), ("inline", .inlineKw), ("alignas", .alignasKw)]

-- The name of a kind in messages.
def describe : TokenKind → String
  | namespaceKw => "'namespace'"
  | classKw => "'class'"
  | structKw => "'struct'"
  | unionKw => "'union'"
  | enumKw => "'enum'"
  | staticKw => "'static'"
  | templateKw => "'template'"
  | typedefKw => "'typedef'"
  | usingKw => "'using'"
  | friendKw => "'friend'"
  | staticAssertKw => "'static_assert'"
  | publicKw => "'public'"
  | protectedKw => "'protected'"
  | privateKw => "'private'"
  | operatorKw => "'operator'"
  | externKw => "'extern'"
  | inlineKw => "'inline'"
  | alignasKw => "'alignas'"
  | docComment => "doc comment"
  | attrOpen => "'[['"
  | lParen => "'('"
  | rParen => "')'"
  | lBrace => "'\x7b'"
  | rBrace => "'\x7d'"
  | lBracket => "'['"
  | rBracket => "']'"
  | lt => "'<'"
  | gt => "'>'"
  | colonColon => "'::'"
  | colon => "':'"
  | semicolon => "';'"
  | comma => "','"
  | eq => "'='"
  | tilde => "'~'"
  | star => "'*'"
  | amp => "'&'"
  | punct => "operator"
  | ellipsis => "'...'"
  | arrow => "'->'"
  | number => "number"
  | string => "string literal"
  | char => "character literal"
  | ident => "identifier"
  | error => "invalid token"
  | eof => "end of file"

-- Opening delimiters, which have to be balanced when a group is skipped.
def isOpen : TokenKind → Bool
  | lParen | lBrace | lBracket | attrOpen => true
  | _ => false

def isClose : TokenKind → Bool
  | rParen | rBrace | rBracket => true
  | _ => false

end TokenKind

abbrev Token := Reflection.Token TokenKind

namespace Lexical

def isBlank (c : Char) : Bool :=
  c = ' ' || c = '\t' || c = '\r' || c = '\n' || c = '\x0c'

def isLetter (c : Char) : Bool := c.isAlpha || c = '_' || c = '$'

def isNumberPart (c : Char) : Bool := c.isAlphanum || c = '_' || c = '.' || c = '\''

-- A preprocessor line runs to the line feed; a backslash takes the character after it along.
-- A backslash that ends the text is left over.
def directiveLength : List Char → Nat
  | '\\' :: _ :: rest => directiveLength rest + 2
  | c :: rest => if c = '\n' || c = '\\' then 0 else directiveLength rest + 1
  | [] => 0

-- A block comment, after its opening, runs to the end of the text if it is not closed.
def blockCommentLength : List Char → Nat
  | '*' :: '/' :: _ => 2
  | _ :: rest => blockCommentLength rest + 1
  | [] => 0

-- Characters up to and with the quote that closes a literal on the same line.
-- A backslash takes the character after it along.
def closedLength? (quote : Char) : List Char → Option Nat
  | [] => none
  | '\\' :: c :: rest =>
    if c = '\n' then none else (closedLength? quote rest).map (· + 2)
  | c :: rest =>
    if c = quote then some 1
    else if c = '\n' then none
    else (closedLength? quote rest).map (· + 1)

-- A string that is not closed on its line ends before the first `]]` of the rest of the line,
-- or else with the line.
def stringLength (rest : List Char) : Nat :=
  match closedLength? '"' rest with
  | some length => length
  | none =>
    let line := rest.takeWhile (· ≠ '\n')
    (Text.indexOf? [']', ']'] line).getD line.length

def restOfLine (rest : List Char) : Nat := (rest.takeWhile (· ≠ '\n')).length

def wordKind (word : List Char) : TokenKind :=
  ((TokenKind.keywords.find? fun entry => entry.1.toList == word).map (·.2)).getD .ident

-- The longest token or skipped text at the front. Blanks, comments and preprocessor lines are
-- skipped; documentation comments of the form `///` are tokens.
def lexeme (c : Char) (rest : List Char) : Lexeme TokenKind :=
  if isBlank c then ⟨none, (rest.takeWhile isBlank).length⟩
  else if isLetter c then
    let more := rest.takeWhile fun d => isLetter d || d.isDigit
    ⟨some (wordKind (c :: more)), more.length⟩
  else if c.isDigit then ⟨some .number, (rest.takeWhile isNumberPart).length⟩
  else match c, rest with
    | '/', '/' :: '/' :: _ => ⟨some .docComment, restOfLine rest⟩
    | '/', '/' :: _ => ⟨none, restOfLine rest⟩
    | '/', '*' :: inner => ⟨none, blockCommentLength inner + 1⟩
    | '#', _ => ⟨none, directiveLength rest⟩
    | '"', _ => ⟨some .string, stringLength rest⟩
    | '\'', _ => literalLexeme '\'' false .char .error rest
    | '[', '[' :: _ => ⟨some .attrOpen, 1⟩
    | ':', ':' :: _ => ⟨some .colonColon, 1⟩
    | '.', '.' :: '.' :: _ => ⟨some .ellipsis, 2⟩
    | '-', '>' :: _ => ⟨some .arrow, 1⟩
    | '(', _ => ⟨some .lParen, 0⟩
    | ')', _ => ⟨some .rParen, 0⟩
    | '{', _ => ⟨some .lBrace, 0⟩
    | '}', _ => ⟨some .rBrace, 0⟩
    | '[', _ => ⟨some .lBracket, 0⟩
    | ']', _ => ⟨some .rBracket, 0⟩
    | '<', _ => ⟨some .lt, 0⟩
    | '>', _ => ⟨some .gt, 0⟩
    | ':', _ => ⟨some .colon, 0⟩
    | ';', _ => ⟨some .semicolon, 0⟩
    | ',', _ => ⟨some .comma, 0⟩
    | '=', _ => ⟨some .eq, 0⟩
    | '~', _ => ⟨some .tilde, 0⟩
    | '*', _ => ⟨some .star, 0⟩
    | '&', _ => ⟨some .amp, 0⟩
    | _, _ => if "-+/%^|!.?".toList.contains c then ⟨some .punct, 0⟩ else ⟨some .error, 0⟩

end Lexical

def scan (text : List Char) : Tokens TokenKind := Reflection.scan Lexical.lexeme .eof text

-- The tokens of a header, with the end of the text as the last one.
def tokenize (text : List Char) : List Token := (scan text).toList

end Reflection.Header
