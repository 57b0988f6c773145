import Reflection.Text

namespace Reflection

structure Span where
  start : Nat
  stop : Nat
  deriving Repr, DecidableEq, Inhabited

namespace Span

def none : Span := ⟨0, 0⟩

-- The smallest span that covers both.
def merge (a b : Span) : Span := ⟨min a.start b.start, max a.stop b.stop⟩

end Span

-- A place in a text; both numbers start at one, and columns count bytes.
structure Position where
  line : Nat
  column : Nat
  deriving Repr, DecidableEq

namespace Position

def advance (at_ : Position) (c : Char) : Position :=
  if c = '\n' then ⟨at_.line + 1, 1⟩ else ⟨at_.line, at_.column + c.utf8Size⟩

def after (text : List Char) : Position := text.foldl advance ⟨1, 1⟩

end Position

def Span.position (span : Span) (text : List Char) : Position :=
  Position.after (Text.takeBytes span.start text)

end Reflection
