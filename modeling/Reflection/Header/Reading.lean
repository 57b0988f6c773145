import Reflection.Header.Token

namespace Reflection.Header

-- What an open group is, in messages.
inductive Group where
  | attribute
  | delimiters
  | templateArguments
  deriving Repr, DecidableEq

def Group.describe : Group → String
  | .attribute => "attribute"
  | .delimiters => "delimiter group"
  | .templateArguments => "template argument list"

inductive ParseError where
  | unexpectedToken (expected found : TokenKind) (span : Span)
  | unexpectedEnd (span : Span)
  | unterminated (group : Group) (span : Span)
  | unmatchedBrace (span : Span)
  deriving Repr, DecidableEq

namespace ParseError

def span : ParseError → Span
  | unexpectedToken _ _ span => span
  | unexpectedEnd span => span
  | unterminated _ span => span
  | unmatchedBrace span => span

def message : ParseError → String
  | unexpectedToken expected found _ =>
    "unexpected token: expected " ++ expected.describe ++ ", found " ++ found.describe
  | unexpectedEnd _ => "unexpected end of file"
  | unterminated group _ => "unterminated " ++ group.describe
  | unmatchedBrace _ => "unmatched '\x7d'"

end ParseError

-- A reader takes the tokens that are left and gives a value or an error, in both cases with the
-- tokens it has not taken. These are the last ones of those it was given, so a place in a header is
-- simply the list of tokens from there on.
inductive Read (α : Type) where
  | done (value : α) (rest : List Token)
  | failed (error : ParseError) (rest : List Token)

namespace Read

variable {α β : Type}

-- The tokens that have not been taken.
def rest : Read α → List Token
  | done _ rest => rest
  | failed _ rest => rest

def bind (read : Read α) (next : α → List Token → Read β) : Read β :=
  match read with
  | done value rest => next value rest
  | failed error rest => .failed error rest

def map (f : α → β) : Read α → Read β
  | done value rest => .done (f value) rest
  | failed error rest => .failed error rest

@[simp] theorem rest_done (value : α) (tokens : List Token) :
    (Read.done value tokens).rest = tokens := rfl

@[simp] theorem rest_failed (error : ParseError) (tokens : List Token) :
    (Read.failed error tokens : Read α).rest = tokens := rfl

@[simp] theorem rest_map (f : α → β) (read : Read α) : (read.map f).rest = read.rest := by
  cases read <;> rfl

theorem suffix_cons {tokens after : List Token} (h : after <:+ tokens) (token : Token) :
    after <:+ token :: tokens := h.trans (List.suffix_cons token tokens)

theorem suffix_of_done {read : Read α} {value : α} {tokens after : List Token}
    (h : read.rest <:+ tokens) (hread : read = .done value after) : after <:+ tokens := by
  simpa [hread] using h

theorem suffix_of_failed {read : Read α} {error : ParseError} {tokens after : List Token}
    (h : read.rest <:+ tokens) (hread : read = .failed error after) : after <:+ tokens := by
  simpa [hread] using h

-- If both parts leave a tail of what they are given, so does one after the other.
theorem suffix_bind {read : Read α} {next : α → List Token → Read β} {tokens : List Token}
    (hread : read.rest <:+ tokens) (hnext : ∀ value after, (next value after).rest <:+ after) :
    (read.bind next).rest <:+ tokens := by
  cases read with
  | done value after => exact (hnext value after).trans hread
  | failed error after => exact hread

end Read

def kindAt : List Token → TokenKind
  | [] => .eof
  | token :: _ => token.kind

-- The span of the next token, or of the end of the text.
def spanAt (ending : Token) (tokens : List Token) : Span := (tokens.headD ending).span

-- Where the last token that has been taken ends.
def takenUpTo (ending : Token) (tokens : List Token) : Nat := (tokens.headD ending).leadStart

-- The span from the start of `first` to the last token that has been taken.
def spanFrom (ending : Token) (first : Span) (tokens : List Token) : Span :=
  ⟨first.start, max first.stop (takenUpTo ending tokens)⟩

def unexpected (ending : Token) (expected : TokenKind) : List Token → ParseError
  | [] => .unexpectedEnd ending.span
  | token :: _ => .unexpectedToken expected token.kind token.span

def expect (ending : Token) (kind : TokenKind) (tokens : List Token) : Read Unit :=
  if kindAt tokens = kind then .done () tokens.tail
  else .failed (unexpected ending kind tokens) tokens

-- Takes a token of this kind if it comes next.
def skipOne (kind : TokenKind) (tokens : List Token) : List Token :=
  if kindAt tokens = kind then tokens.tail else tokens

theorem expect_suffix (ending : Token) (kind : TokenKind) (tokens : List Token) :
    (expect ending kind tokens).rest <:+ tokens := by
  unfold expect
  split
  · exact List.tail_suffix tokens
  · exact List.suffix_refl tokens

theorem skipOne_suffix (kind : TokenKind) (tokens : List Token) :
    skipOne kind tokens <:+ tokens := by
  unfold skipOne
  split
  · exact List.tail_suffix tokens
  · exact List.suffix_refl tokens

end Reflection.Header
