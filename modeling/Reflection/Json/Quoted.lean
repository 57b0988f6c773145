import Reflection.Json.Basic

namespace Reflection.Json

def hexDigit (value : Nat) : Char := Nat.digitChar value

-- Quotes, backslashes and control characters are escaped, nothing else.
def escapeChar (c : Char) : List Char :=
  match c with
  | '"' => ['\\', '"']
  | '\\' => ['\\', '\\']
  | '\x08' => ['\\', 'b']
  | '\x0c' => ['\\', 'f']
  | '\n' => ['\\', 'n']
  | '\r' => ['\\', 'r']
  | '\t' => ['\\', 't']
  | c =>
    if c.toNat < 0x20 then
      ['\\', 'u', '0', '0', hexDigit (c.toNat / 16), hexDigit (c.toNat % 16)]
    else [c]

def escape (text : List Char) : List Char := text.flatMap escapeChar

def ofText (text : List Char) : Json := .string (escape text)

def ofString (text : String) : Json := ofText text.toList

def hexValue? (c : Char) : Option Nat :=
  if c.isDigit then some (c.toNat - '0'.toNat)
  else if 'a' ≤ c ∧ c ≤ 'f' then some (c.toNat - 'a'.toNat + 10)
  else if 'A' ≤ c ∧ c ≤ 'F' then some (c.toNat - 'A'.toNat + 10)
  else none

-- The code unit that four hexadecimal digits spell, and what follows them.
def codeUnit? : List Char → Option (Nat × List Char)
  | a :: b :: c :: d :: rest => do
    let value := (← hexValue? a) * 0x1000 + (← hexValue? b) * 0x100 + (← hexValue? c) * 0x10
      + (← hexValue? d)
    some (value, rest)
  | _ => none

def simpleEscape? : Char → Option Char
  | '"' => some '"'
  | '\\' => some '\\'
  | '/' => some '/'
  | 'b' => some '\x08'
  | 'f' => some '\x0c'
  | 'n' => some '\n'
  | 'r' => some '\r'
  | 't' => some '\t'
  | _ => none

def isHighSurrogate (unit : Nat) : Bool := 0xD800 ≤ unit && unit ≤ 0xDBFF

def isLowSurrogate (unit : Nat) : Bool := 0xDC00 ≤ unit && unit ≤ 0xDFFF

-- The character that `\u` and the digits after it stand for, and how many of these characters
-- belong to it. Surrogates have to come in pairs.
def unicodeEscape? (text : List Char) : Option (Char × Nat) :=
  match codeUnit? text with
  | none => none
  | some (high, rest) =>
    if isHighSurrogate high then
      match rest with
      | '\\' :: 'u' :: more =>
        match codeUnit? more with
        | some (low, _) =>
          if isLowSurrogate low then
            some (Char.ofNat (0x10000 + (high - 0xD800) * 0x400 + (low - 0xDC00)), 10)
          else none
        | none => none
      | _ => none
    else if isLowSurrogate high then none
    else some (Char.ofNat high, 4)

-- The text of a written string; none if a surrogate in it stands alone.
def textOf? : List Char → Option (List Char)
  | [] => some []
  | '\\' :: 'u' :: rest =>
    match unicodeEscape? rest with
    | none => none
    | some (c, length) => (textOf? (rest.drop length)).map (c :: ·)
  | '\\' :: c :: rest =>
    match simpleEscape? c with
    | none => none
    | some decoded => (textOf? rest).map (decoded :: ·)
  | c :: rest => (textOf? rest).map (c :: ·)
termination_by body => body.length
decreasing_by all_goals simp only [List.length_drop, List.length_cons]; omega

-- A string that goes wrong after `body`. Read, it goes wrong in the body already if a surrogate
-- there stands alone; the one at the end of the body might have found its other half.
def Flaw.ofString (body : List Char) (fault : Fault) : Flaw :=
  let isSound := (textOf? body).isSome || (textOf? (body ++ "\\udc00".toList)).isSome
  ⟨if isSound then fault else .invalid, fault⟩

end Reflection.Json
