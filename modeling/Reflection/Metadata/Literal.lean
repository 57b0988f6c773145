namespace Reflection.Metadata.Literal

def isOctal (c : Char) : Bool := '0' ≤ c && c ≤ '7'

def isHex (c : Char) : Bool :=
  c.isDigit || ('a' ≤ c && c ≤ 'f') || ('A' ≤ c && c ≤ 'F')

def digitValue (c : Char) : UInt32 :=
  if c.isDigit then c.val - '0'.val
  else if 'a' ≤ c then c.val - 'a'.val + 10
  else c.val - 'A'.val + 10

-- The number is kept in 32 bits and wraps around, as it does in a build that leaves its arithmetic
-- unchecked.
def digitsValue (base : UInt32) (digits : List Char) : UInt32 :=
  digits.foldl (fun value digit => value * base + digitValue digit) 0

-- What a backslash and the character `c` after it stand for, and how many of the characters
-- after `c` belong to the escape. A hexadecimal escape takes every digit it can get; without a
-- digit, or if its number is that of no character, the backslash and the `x` stay and the digits
-- are lost. An octal escape takes at most three digits. Any other character stands for itself.
def escape (c : Char) (rest : List Char) : List Char × Nat :=
  if c = 'x' then
    let digits := rest.takeWhile isHex
    let code := digitsValue 16 digits
    (if digits ≠ [] ∧ code.isValidChar then [Char.ofNat code.toNat] else ['\\', 'x'],
      digits.length)
  else if isOctal c then
    let digits := (rest.take 2).takeWhile isOctal
    ([Char.ofNat (digitsValue 8 (c :: digits)).toNat], digits.length)
  else
    ([match c with
      | 'n' => '\n'
      | 't' => '\t'
      | 'r' => '\r'
      | 'a' => '\x07'
      | 'b' => '\x08'
      | 'f' => '\x0c'
      | 'v' => '\x0b'
      | c => c], 0)

-- The text between the quotes of a literal, with its escapes decoded.
def decodeBody : List Char → List Char
  | [] => []
  | ['\\'] => ['\\']
  | '\\' :: c :: rest =>
    let decoded := escape c rest
    decoded.1 ++ decodeBody (rest.drop decoded.2)
  | c :: rest => c :: decodeBody rest
termination_by text => text.length
decreasing_by all_goals simp only [List.length_drop, List.length_cons]; omega

-- What stands between the quotes; a text that is not quoted is left as it is.
def body (literal : List Char) : List Char :=
  match literal with
  | '"' :: inner => if inner.getLast? = some '"' then inner.dropLast else literal
  | _ => literal

def decode (literal : List Char) : List Char := decodeBody (body literal)

-- Control characters without a letter of their own take three octal digits,
-- so that a digit after them cannot be taken for a part of the escape.
def encodeChar (c : Char) : List Char :=
  match c with
  | '"' => ['\\', '"']
  | '\\' => ['\\', '\\']
  | '\n' => ['\\', 'n']
  | '\t' => ['\\', 't']
  | '\r' => ['\\', 'r']
  | c =>
    if c.toNat < 0x20 ∨ c.toNat = 0x7f then
      ['\\', Nat.digitChar (c.toNat / 64), Nat.digitChar (c.toNat / 8 % 8),
        Nat.digitChar (c.toNat % 8)]
    else [c]

def encode (text : List Char) : List Char := '"' :: text.flatMap encodeChar ++ ['"']

def quote (text : String) : String := String.ofList (encode text.toList)

def unquote (literal : String) : String := String.ofList (decode literal.toList)

end Reflection.Metadata.Literal
