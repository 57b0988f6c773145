import Reflection.Json.Basic

namespace Reflection.Json

def digitValue (digit : Char) : Nat := digit.toNat - '0'.toNat

def decimal (digits : List Char) : Nat :=
  digits.foldl (fun value digit => value * 10 + digitValue digit) 0

def maxNatural : Nat := Nat.pow 2 64 - 1

-- A number without its sign: a natural number times a power of ten.
structure Scaled where
  significand : Nat
  exponent : Int
  deriving Repr, DecidableEq

-- Appends digits to a significand while it stays small enough; gives also the digits left over.
def appendDigits (significand : Nat) : List Char → Nat × List Char
  | [] => (significand, [])
  | digit :: digits =>
    let next := significand * 10 + digitValue digit
    if next ≤ maxNatural then appendDigits next digits else (significand, digit :: digits)

-- What the characters after the mark of the exponent say.
def exponentOf (spelling : List Char) : Int :=
  let size : Int := decimal (spelling.filter Char.isDigit)
  if spelling.head? = some '-' then -size else size

-- A digit in front of the point that is left over still counts as a place.
def Scaled.of (spelling : List Char) : Scaled :=
  let unsigned := spelling.dropWhile (· = '-')
  let isMark := fun c : Char => c = 'e' || c = 'E'
  let mantissa := unsigned.takeWhile fun c => !isMark c
  let fraction := (mantissa.dropWhile Char.isDigit).drop 1
  let (whole, places) := appendDigits 0 (mantissa.takeWhile Char.isDigit)
  let (significand, unread) := appendDigits whole fraction
  let kept := fraction.length - unread.length
  ⟨significand, (places.length : Int) - kept +
    exponentOf ((unsigned.dropWhile fun c => !isMark c).drop 1)⟩

-- The nearest number of 53 significant bits; of two that are equally near, the even one.
def roundToBinary (value : Nat) : Nat :=
  let unit := Nat.pow 2 (value.log2 + 1 - 53)
  let quotient := value / unit
  let remainder := value % unit
  let isUp := unit < remainder * 2 || (remainder * 2 = unit && quotient % 2 = 1)
  (if isUp then quotient + 1 else quotient) * unit

-- The least number that is rounded to infinity.
def overflow : Nat := Nat.pow 2 1024 - Nat.pow 2 970

-- The greatest power of ten that is finite.
def maxExponent : Int := 308

-- Is the number small enough to be read? No number is too close to zero.
def isInRange (spelling : List Char) : Bool :=
  let scaled := Scaled.of spelling
  if scaled.significand = 0 || scaled.exponent ≤ 0 then true
  else if maxExponent < scaled.exponent then false
  else roundToBinary scaled.significand * roundToBinary (Nat.pow 10 scaled.exponent.toNat) <
    overflow

end Reflection.Json
