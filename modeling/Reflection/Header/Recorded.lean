import Reflection.Header.Skipping

namespace Reflection.Header

-- With fatal errors, the first report ends the reading.
inductive ErrorMode where
  | tolerant
  | fatal
  deriving Repr, DecidableEq

-- A reading with the errors reported during it, oldest first. The bound on what it leaves is what
-- makes the reading of scopes terminate.
structure Recorded (α : Type) (bound : Nat) where
  outcome : Except ParseError α
  recovered : List ParseError
  rest : List Token
  rest_le : rest.length ≤ bound

namespace Recorded

variable {α β : Type} {bound larger : Nat}

def within (h : bound ≤ larger) (read : Recorded α bound) : Recorded α larger :=
  { read with rest_le := Nat.le_trans read.rest_le h }

def map (f : α → β) (read : Recorded α bound) : Recorded β bound :=
  { read with outcome := read.outcome.map f }

-- Puts the errors of an earlier reading in front.
def behind (earlier : List ParseError) (read : Recorded α bound) : Recorded α bound :=
  { read with recovered := earlier ++ read.recovered }

-- A reading without reports.
def ofRead (read : Read α) (h : read.rest.length ≤ bound) : Recorded α bound :=
  ⟨match read with
    | .done value _ => .ok value
    | .failed error _ => .error error, [], read.rest, h⟩

-- Goes on, after a reading that gives a value, with one that has nothing to report.
def andThen (read : Recorded α bound) (next : α → List Token → Read β)
    (h : ∀ value tokens, (next value tokens).rest.length ≤ tokens.length) : Recorded β bound :=
  match read.outcome with
  | .error error => ⟨.error error, read.recovered, read.rest, read.rest_le⟩
  | .ok value =>
    (ofRead (next value read.rest) (Nat.le_trans (h value read.rest) read.rest_le)).behind
      read.recovered

end Recorded

-- Where a scope goes on after one of its declarations. Tokens that no rule accepts are dropped
-- one at a time.
def resume (tokens rest : List Token) : List Token :=
  if rest.length < tokens.length then rest else tokens.tail

theorem resume_length {token : Token} {tokens rest : List Token} :
    (resume (token :: tokens) rest).length ≤ tokens.length := by
  unfold resume
  split
  case isTrue h => exact Nat.le_of_lt_succ h
  case isFalse => exact Nat.le_refl _

end Reflection.Header
