import Reflection.Json.Quoted

namespace Reflection.Json

-- A parsed part, and what follows it in the text. That it took something bounds the parts inside
-- it.
structure Part (α : Type) (bound : Nat) where
  value : α
  rest : List Char
  rest_lt : rest.length < bound

namespace Part

variable {α β : Type} {bound larger : Nat}

def map (f : α → β) (part : Part α bound) : Part β bound :=
  { part with value := f part.value }

def within (h : bound ≤ larger) (part : Part α bound) : Part α larger :=
  { part with rest_lt := Nat.lt_of_lt_of_le part.rest_lt h }

end Part

def isSpace (c : Char) : Bool := c = ' ' || c = '\n' || c = '\t' || c = '\r'

def skipSpace (text : List Char) : List Char := text.dropWhile isSpace

theorem skipSpace_length (text : List Char) : (skipSpace text).length ≤ text.length :=
  (List.dropWhile_suffix isSpace).length_le

-- How far a word goes along with the text: to its end, to the end of the text, or not.
def word (expected : List Char) (value : Json) (text : List Char) :
    Except Fault (Part Json (text.length + 1)) :=
  match expected, text with
  | [], text => .ok ⟨value, text, Nat.lt_succ_self _⟩
  | _ :: _, [] => .error .truncated
  | e :: expected, c :: text =>
    if c = e then (word expected value text).map fun part => part.within (by simp)
    else .error .invalid

-- At least one digit, and all digits after it.
def digits (text : List Char) : Except Fault (Part (List Char) text.length) :=
  match text with
  | [] => .error .truncated
  | c :: rest =>
    if c.isDigit then
      .ok ⟨c :: rest.takeWhile Char.isDigit, rest.dropWhile Char.isDigit,
        Nat.lt_succ_of_le (List.dropWhile_suffix Char.isDigit).length_le⟩
    else .error .invalid

-- The digits before the point: no zero stands in front of another digit.
def integerPart (text : List Char) : Except Fault (Part (List Char) text.length) :=
  match text with
  | '0' :: c :: rest =>
    if c.isDigit then .error .invalid else .ok ⟨['0'], c :: rest, Nat.lt_succ_self _⟩
  | text => digits text

def fractionPart (text : List Char) : Except Fault (Part (List Char) (text.length + 1)) :=
  match text with
  | '.' :: rest => (digits rest).map fun part =>
      ⟨'.' :: part.value, part.rest, Nat.lt_of_lt_of_le part.rest_lt (by simp; omega)⟩
  | text => .ok ⟨[], text, Nat.lt_succ_self _⟩

def exponentDigits (mark : List Char) (text : List Char) :
    Except Fault (Part (List Char) text.length) :=
  (digits text).map (Part.map (mark ++ ·))

def exponentPart (text : List Char) : Except Fault (Part (List Char) (text.length + 1)) :=
  match text with
  | c :: rest =>
    if c = 'e' ∨ c = 'E' then
      match rest with
      | sign :: more =>
        if sign = '+' ∨ sign = '-' then
          (exponentDigits [c, sign] more).map (Part.within (by simp; omega))
        else (exponentDigits [c] (sign :: more)).map (Part.within (by simp))
      | [] => .error .truncated
    else .ok ⟨[], c :: rest, Nat.lt_succ_self _⟩
  | [] => .ok ⟨[], [], Nat.lt_succ_self _⟩

-- A number without its sign.
def unsigned (text : List Char) : Except Fault (Part (List Char) text.length) :=
  match integerPart text with
  | .error fault => .error fault
  | .ok whole =>
    match fractionPart whole.rest with
    | .error fault => .error fault
    | .ok fraction =>
      match exponentPart fraction.rest with
      | .error fault => .error fault
      | .ok exponent =>
        .ok ⟨whole.value ++ fraction.value ++ exponent.value, exponent.rest, by
          have := whole.rest_lt
          have := fraction.rest_lt
          have := exponent.rest_lt
          omega⟩

-- What is left of the text after a part of it.
abbrev Rest (bound : Nat) := { rest : List Char // rest.length < bound }

def Rest.within {bound larger : Nat} (h : bound ≤ larger) (rest : Rest bound) : Rest larger :=
  ⟨rest.1, Nat.lt_of_lt_of_le rest.2 h⟩

-- A part of the text, kept even if the text goes wrong in it. Then nothing is left.
structure Stretch (α : Type) (bound : Nat) where
  value : α
  rest? : Option (Rest bound)

namespace Stretch

variable {α β : Type} {bound larger : Nat}

def map (f : α → β) (stretch : Stretch α bound) : Stretch β bound :=
  { stretch with value := f stretch.value }

def within (h : bound ≤ larger) (stretch : Stretch α bound) : Stretch α larger :=
  { stretch with rest? := stretch.rest?.map (Rest.within h) }

def ofPart (flaw : Fault → Flaw) : Except Fault (Part Json bound) → Stretch Json bound
  | .ok part => ⟨part.value, some ⟨part.rest, part.rest_lt⟩⟩
  | .error fault => ⟨.flawed (flaw fault), none⟩

end Stretch

-- A string up to its closing quote, or up to the place where it goes wrong.
structure Quoted (bound : Nat) where
  body : List Char
  rest : Except Fault (Rest bound)

namespace Quoted

variable {bound larger : Nat}

def prepend (chars : List Char) (h : bound ≤ larger) (quoted : Quoted bound) : Quoted larger :=
  ⟨chars ++ quoted.body, quoted.rest.map (Rest.within h)⟩

end Quoted

-- The body of a string after its opening quote. Escapes are checked for their form only.
def stringBody (text : List Char) : Quoted text.length :=
  match text with
  | [] => ⟨[], .error .truncated⟩
  | '"' :: rest => ⟨[], .ok ⟨rest, Nat.lt_succ_self _⟩⟩
  | ['\\'] => ⟨[], .error .truncated⟩
  | '\\' :: 'u' :: rest =>
    if (codeUnit? rest).isSome then
      (stringBody (rest.drop 4)).prepend ('\\' :: 'u' :: rest.take 4) (by simp; omega)
    else if Text.byteLength rest < 4 then ⟨[], .error .truncated⟩
    else ⟨[], .error .invalid⟩
  | '\\' :: c :: rest =>
    if (simpleEscape? c).isSome then (stringBody rest).prepend ['\\', c] (by simp; omega)
    else ⟨[], .error .invalid⟩
  | c :: rest =>
    if c.toNat < 0x20 then ⟨[], .error .invalid⟩
    else (stringBody rest).prepend [c] (by simp)
termination_by text.length
decreasing_by all_goals simp only [List.length_drop, List.length_cons]; omega

def stringValue (text : List Char) : Stretch Json text.length :=
  match stringBody text with
  | ⟨body, .ok rest⟩ => ⟨.string body, some rest⟩
  | ⟨body, .error fault⟩ => ⟨.flawed (.ofString body fault), none⟩

-- A number without its sign. One that is passed over is never said to end too early.
def numberValue (sign : List Char) (text : List Char) : Stretch Json text.length :=
  .ofPart (fun fault => ⟨fault, .invalid⟩)
    ((unsigned text).map (Part.map fun digits => .number (sign ++ digits)))

-- The name of a field.
def fieldName (text : List Char) : Stretch Name text.length :=
  match text with
  | [] => ⟨.flawed (.ofFault .truncated), none⟩
  | '"' :: rest =>
    match stringBody rest with
    | ⟨body, .ok after⟩ => ⟨.spelled body, some ⟨after, Nat.lt_succ_of_lt after.2⟩⟩
    | ⟨body, .error fault⟩ => ⟨.flawed (.ofString body fault), none⟩
  | _ :: _ => ⟨.flawed (.ofFault .invalid), none⟩

mutual

def value (text : List Char) : Stretch Json text.length :=
  match text with
  | [] => ⟨.flawed (.ofFault .truncated), none⟩
  | c :: rest =>
    if isSpace c then (value rest).within (Nat.le_succ _)
    else match c with
    | 'n' => .ofPart .ofFault (word "ull".toList .null rest)
    | 't' => .ofPart .ofFault (word "rue".toList (.bool true) rest)
    | 'f' => .ofPart .ofFault (word "alse".toList (.bool false) rest)
    | '"' => (stringValue rest).within (Nat.le_succ _)
    | '[' => ((firstItem rest).map Json.array).within (Nat.le_succ _)
    | '{' => ((firstField rest).map Json.object).within (Nat.le_succ _)
    | '-' => (numberValue ['-'] rest).within (Nat.le_succ _)
    | c =>
      if c.isDigit then numberValue [] (c :: rest)
      else ⟨.flawed (.ofFault .invalid), none⟩
termination_by 4 * text.length
decreasing_by all_goals simp only [List.length_cons]; omega

-- The items of an array after its opening bracket.
def firstItem (text : List Char) : Stretch (List Json) text.length :=
  match text with
  | [] => ⟨[.flawed (.ofFault .truncated)], none⟩
  | c :: rest =>
    if isSpace c then (firstItem rest).within (Nat.le_succ _)
    else if c = ']' then ⟨[], some ⟨rest, Nat.lt_succ_self _⟩⟩
    else items (c :: rest)
termination_by 4 * text.length + 2
decreasing_by all_goals simp only [List.length_cons]; omega

-- One item, and the items after it.
def items (text : List Char) : Stretch (List Json) text.length :=
  match value text with
  | ⟨item, none⟩ => ⟨[item], none⟩
  | ⟨item, some ⟨rest, h⟩⟩ => ((moreItems rest).map (item :: ·)).within (Nat.le_of_lt h)
termination_by 4 * text.length + 1
decreasing_by all_goals omega

-- What follows an item.
def moreItems (text : List Char) : Stretch (List Json) text.length :=
  match text with
  | [] => ⟨[.flawed (.ofFault .truncated)], none⟩
  | c :: rest =>
    if isSpace c then (moreItems rest).within (Nat.le_succ _)
    else if c = ']' then ⟨[], some ⟨rest, Nat.lt_succ_self _⟩⟩
    else if c = ',' then (items rest).within (Nat.le_succ _)
    else ⟨[.flawed (.ofFault .invalid)], none⟩
termination_by 4 * text.length + 2
decreasing_by all_goals simp only [List.length_cons]; omega

-- The fields of an object after its opening brace.
def firstField (text : List Char) : Stretch (List (Name × Json)) text.length :=
  match text with
  | [] => ⟨[(.flawed (.ofFault .truncated), .null)], none⟩
  | c :: rest =>
    if isSpace c then (firstField rest).within (Nat.le_succ _)
    else if c = '}' then ⟨[], some ⟨rest, Nat.lt_succ_self _⟩⟩
    else fields (c :: rest)
termination_by 4 * text.length + 2
decreasing_by all_goals simp only [List.length_cons]; omega

-- One field, and the fields after it.
def fields (text : List Char) : Stretch (List (Name × Json)) text.length :=
  have := skipSpace_length text
  match fieldName (skipSpace text) with
  | ⟨name, none⟩ => ⟨[(name, .null)], none⟩
  | ⟨name, some ⟨rest, h⟩⟩ =>
    match fieldValue rest with
    | ⟨content, none⟩ => ⟨[(name, content)], none⟩
    | ⟨content, some ⟨rest', h'⟩⟩ =>
      ((moreFields rest').map ((name, content) :: ·)).within (by omega)
termination_by 4 * text.length + 1
decreasing_by all_goals omega

-- What follows the name of a field: a colon and the value.
def fieldValue (text : List Char) : Stretch Json text.length :=
  match text with
  | [] => ⟨.flawed (.ofFault .truncated), none⟩
  | c :: rest =>
    if isSpace c then (fieldValue rest).within (Nat.le_succ _)
    else if c = ':' then (value rest).within (Nat.le_succ _)
    else ⟨.flawed (.ofFault .invalid), none⟩
termination_by 4 * text.length
decreasing_by all_goals simp only [List.length_cons]; omega

-- What follows a field.
def moreFields (text : List Char) : Stretch (List (Name × Json)) text.length :=
  match text with
  | [] => ⟨[(.flawed (.ofFault .truncated), .null)], none⟩
  | c :: rest =>
    if isSpace c then (moreFields rest).within (Nat.le_succ _)
    else if c = '}' then ⟨[], some ⟨rest, Nat.lt_succ_self _⟩⟩
    else if c = ',' then (fields rest).within (Nat.le_succ _)
    else ⟨[(.flawed (.ofFault .invalid), .null)], none⟩
termination_by 4 * text.length + 2
decreasing_by all_goals simp only [List.length_cons]; omega

end

-- A text as a value.
structure Document where
  content : Json
  -- does the text go on after the value?
  isFollowed : Bool

def parse (text : List Char) : Document :=
  match value text with
  | ⟨content, none⟩ => ⟨content, false⟩
  | ⟨content, some rest⟩ => ⟨content, !(skipSpace rest).isEmpty⟩

-- Reads the value of a text. That something follows it shows only after that.
def read {α : Type} (reader : Json → Except Fault α) (text : List Char) : Except Fault α := do
  let document := parse text
  let result ← reader document.content
  if document.isFollowed then .error .invalid else .ok result

end Reflection.Json
