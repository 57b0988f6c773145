namespace Reflection.Text

-- The 25 characters with the Unicode property White_Space, as closed ranges of code points.
def blankRanges : List (Nat × Nat) :=
  [(0x09, 0x0D), (0x20, 0x20), (0x85, 0x85), (0xA0, 0xA0), (0x1680, 0x1680), (0x2000, 0x200A),
   (0x2028, 0x2029), (0x202F, 0x202F), (0x205F, 0x205F), (0x3000, 0x3000)]

def isBlank (c : Char) : Bool :=
  blankRanges.any fun range => range.1 ≤ c.toNat && c.toNat ≤ range.2

def trimStart (text : List Char) : List Char := text.dropWhile isBlank

def trimEnd (text : List Char) : List Char := (text.reverse.dropWhile isBlank).reverse

def trim (text : List Char) : List Char := trimEnd (trimStart text)

-- A text without blanks at its ends is not trimmed.
theorem trim_eq_self {first last : Char} {more front : List Char}
    (hfirst : isBlank first = false) (hlast : isBlank last = false)
    (h : first :: more = front ++ [last]) : trim (first :: more) = first :: more := by
  have hstart : trimStart (first :: more) = first :: more := by
    rw [trimStart, List.dropWhile_cons_of_neg (by simp [hfirst])]
  rw [trim, hstart, h, trimEnd, List.reverse_append, List.reverse_singleton,
    List.singleton_append, List.dropWhile_cons_of_neg (by simp [hlast]), List.reverse_cons,
    List.reverse_reverse]

-- A line ends at a line feed or at the end of the text. One carriage return
-- directly before the line feed belongs to the line end.
def lines : List Char → List (List Char)
  | [] => []
  | '\r' :: '\n' :: rest => [] :: lines rest
  | c :: rest =>
    if c = '\n' then [] :: lines rest
    else match lines rest with
      | [] => [[c]]
      | line :: more => (c :: line) :: more

-- Offsets and spans count bytes of UTF-8.
def byteLength : List Char → Nat
  | [] => 0
  | c :: rest => c.utf8Size + byteLength rest

@[simp] theorem byteLength_append (left right : List Char) :
    byteLength (left ++ right) = byteLength left + byteLength right := by
  induction left with
  | nil => simp [byteLength]
  | cons c left ih => simp [byteLength, ih, Nat.add_assoc]

-- The characters that fit into the first `count` bytes.
def takeBytes : Nat → List Char → List Char
  | _, [] => []
  | count, c :: rest =>
    if c.utf8Size ≤ count then c :: takeBytes (count - c.utf8Size) rest else []

-- The number of characters before the first occurrence of `wanted`.
def indexOf? (wanted : List Char) : List Char → Option Nat
  | [] => if wanted.isEmpty then some 0 else none
  | c :: rest =>
    if wanted.isPrefixOf (c :: rest) then some 0 else (indexOf? wanted rest).map (· + 1)

-- What follows `start`, if the text begins with it.
def after? (start text : List Char) : Option (List Char) :=
  if start.isPrefixOf text then some (text.drop start.length) else none

-- What follows the last occurrence of `separator`; the whole text if there is none.
def lastPart (separator : List Char) : List Char → List Char
  | [] => []
  | c :: rest =>
    if (indexOf? separator rest).isSome then lastPart separator rest
    else (after? separator (c :: rest)).getD (c :: rest)

-- The parts between the occurrences of a character; a text without it is one part.
def splitOn (separator : Char) : List Char → List (List Char)
  | [] => [[]]
  | c :: rest =>
    if c = separator then [] :: splitOn separator rest
    else match splitOn separator rest with
      | [] => [[c]]
      | part :: parts => (c :: part) :: parts

-- What stands before and after the first occurrence of a character.
def splitOnce (separator : Char) (text : List Char) : Option (List Char × List Char) :=
  if text.contains separator then
    some (text.takeWhile (· ≠ separator), (text.dropWhile (· ≠ separator)).drop 1)
  else none

-- The text with the first occurrence of `wanted` replaced, if there is one.
def replaceFirst (wanted replacement text : List Char) : List Char :=
  match indexOf? wanted text with
  | none => text
  | some index => text.take index ++ replacement ++ text.drop (index + wanted.length)

end Reflection.Text
