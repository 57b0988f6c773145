import Reflection.Metadata.Token

namespace Reflection.Metadata

-- Neither side is interpreted, and a key may occur more than once.
structure Piece where
  key : String
  value : String
  deriving Repr, DecidableEq

namespace Piece

-- The value of a key that is given without an argument.
def nullValue : String := "null"

def marker (key : String) : Piece := ⟨key, nullValue⟩

def isMarker (piece : Piece) : Bool := piece.value == nullValue

end Piece

def allValues (pieces : List Piece) (key : String) : List String :=
  (pieces.filter (·.key == key)).map (·.value)

def firstValue? (pieces : List Piece) (key : String) : Option String :=
  (pieces.find? (·.key == key)).map (·.value)

-- What annotation text may have to go on with.
inductive Expectation where
  | token (kind : TokenKind)
  | metadataKey
  | objectKey
  | value
  | commaOrBrace
  deriving Repr, DecidableEq

def Expectation.describe : Expectation → String
  | token kind => kind.describe
  | metadataKey => "metadata key"
  | objectKey => "object key"
  | value => "value"
  | commaOrBrace => "',' or '\x7d'"

-- Why annotation text could not be read.
inductive Fault where
  | invalidToken
  | unexpected (expected : Expectation) (found : TokenKind)
  | unterminated (opening : TokenKind)
  | unbalanced (closing : TokenKind)
  deriving Repr, DecidableEq

def Fault.reason : Fault → String
  | invalidToken => "invalid character or unterminated string"
  | unexpected expected found => "expected " ++ expected.describe ++ ", found " ++ found.describe
  | unterminated opening => "unterminated " ++ opening.describe
  | unbalanced closing => "unbalanced " ++ closing.describe

structure Malformed where
  fault : Fault
  offset : Nat
  deriving Repr, DecidableEq

def Malformed.message (error : Malformed) : String :=
  "malformed metadata at offset " ++ toString error.offset ++ ": " ++ error.fault.reason

end Reflection.Metadata
