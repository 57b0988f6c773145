import Reflection.Text

namespace Reflection

namespace Json

-- Why a text could not be read.
inductive Fault where
  -- it is not JSON
  | invalid
  -- it is JSON of the wrong shape
  | mismatch
  -- it ends too early
  | truncated
  deriving Repr, DecidableEq

-- A place where the text goes wrong: what is found there by reading it, and what by passing it
-- over. The latter looks at the form of a number or string only.
structure Flaw where
  read : Fault
  skipped : Fault
  deriving Repr, DecidableEq

def Flaw.ofFault (fault : Fault) : Flaw := ⟨fault, fault⟩

-- The name of a field.
inductive Name where
  -- what stands between the quotes
  | spelled (body : List Char)
  -- there is no name, and nothing comes after it
  | flawed (flaw : Flaw)

-- Containers may be nested up to this depth where they are read.
def maxDepth : Nat := 127

end Json

-- Numbers and strings keep their spelling, and the fields of an object their order: what a value
-- means is settled only where it is read. A text that goes wrong somewhere is kept up to that
-- place.
inductive Json where
  | null
  | bool (value : Bool)
  -- the digits with sign, fraction and exponent
  | number (spelling : List Char)
  -- what stands between the quotes
  | string (body : List Char)
  | array (items : List Json)
  | object (fields : List (Json.Name × Json))
  -- nothing comes after it
  | flawed (flaw : Json.Flaw)

end Reflection
