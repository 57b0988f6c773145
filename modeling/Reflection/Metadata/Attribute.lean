import Reflection.Metadata.Literal
import Reflection.Metadata.Piece

namespace Reflection.Metadata

namespace Attribute

def kindAt : List Token → TokenKind
  | [] => .eof
  | token :: _ => token.kind

def unexpected (ending : Token) (expected : Expectation) (tokens : List Token) : Malformed :=
  let found := tokens.headD ending
  ⟨if found.kind = .error then .invalidToken else .unexpected expected found.kind, found.start⟩

-- A reader takes the tokens that are left, and the token that ends the text, and gives what it read
-- with the tokens after it.
def expect (ending : Token) (kind : TokenKind) :
    List Token → Except Malformed (Token × List Token)
  | [] => .error (unexpected ending (.token kind) [])
  | token :: rest =>
    if token.kind = kind then .ok (token, rest)
    else .error (unexpected ending (.token kind) (token :: rest))

def isOpening : TokenKind → Bool
  | .lParen | .lBrace | .lBracket => true
  | _ => false

def isClosing : TokenKind → Bool
  | .rParen | .rBrace | .rBracket => true
  | _ => false

-- The bracket that closes an opening one.
def closing : TokenKind → TokenKind
  | .lParen => .rParen
  | .lBrace => .rBrace
  | .lBracket => .rBracket
  | kind => kind

-- The names that follow the first one of a key, each behind `::`.
def moreNames : List Token → List Char × List Token
  | separator :: name :: rest =>
    if separator.kind = .colonColon ∧ name.kind = .ident then
      let more := moreNames rest
      (':' :: ':' :: name.text ++ more.1, more.2)
    else ([], separator :: name :: rest)
  | rest => ([], rest)

-- `name`, `ns::name` or `::ns::name`.
def key (ending : Token) (tokens : List Token) : Except Malformed (List Char × List Token) := do
  let qualified := kindAt tokens = .colonColon
  let (name, rest) ← expect ending .ident (if qualified then tokens.tail else tokens)
  let (more, rest) := moreNames rest
  .ok ((if qualified then [':', ':'] else []) ++ name.text ++ more, rest)

-- The text of an argument list up to the parenthesis that closes it. Brackets have to be
-- closed in order, each by its own kind; `expected` holds the ones still open.
def rawArgument (ending opening : Token) (expected : List TokenKind) (text : List Char) :
    List Token → Except Malformed (List Char × List Token)
  | [] => .error ⟨.unterminated .lParen, opening.start⟩
  | token :: rest =>
    if token.kind = .error then .error (unexpected ending .value (token :: rest))
    else if isOpening token.kind then
      rawArgument ending opening (closing token.kind :: expected) (text ++ token.spelled) rest
    else if isClosing token.kind then
      if expected.head? ≠ some token.kind then .error ⟨.unbalanced token.kind, token.start⟩
      else if expected.tail.isEmpty then .ok (Text.trim (text ++ token.lead), rest)
      else rawArgument ending opening expected.tail (text ++ token.spelled) rest
    else rawArgument ending opening expected (text ++ token.spelled) rest

-- A nested value is kept as written. Its brackets are counted without regard to their kind.
def nestedValue (ending opening : Token) (depth : Nat) (text : List Char) :
    List Token → Except Malformed (List Char × List Token)
  | [] => .error ⟨.unterminated opening.kind, opening.start⟩
  | token :: rest =>
    let text := text ++ token.spelled
    if token.kind = .error then .error (unexpected ending .value (token :: rest))
    else if isOpening token.kind then nestedValue ending opening (depth + 1) text rest
    else if isClosing token.kind then
      if depth ≤ 1 then .ok (text, rest) else nestedValue ending opening (depth - 1) text rest
    else nestedValue ending opening depth text rest

def value (ending : Token) : List Token → Except Malformed (List Char × List Token)
  | [] => .error (unexpected ending .value [])
  | token :: rest =>
    match token.kind with
    | .string => .ok (Literal.decode token.text, rest)
    | .number | .ident => .ok (token.text, rest)
    | .lBrace | .lBracket => nestedValue ending token 1 token.text rest
    | _ => .error (unexpected ending .value (token :: rest))

def objectKey (ending : Token) : List Token → Except Malformed (List Char × List Token)
  | [] => .error (unexpected ending .objectKey [])
  | token :: rest =>
    match token.kind with
    | .string => .ok (Literal.decode token.text, rest)
    | .ident => .ok (token.text, rest)
    | _ => .error (unexpected ending .objectKey (token :: rest))

-- One `key: value` or `key = value` of an object.
def entry (ending : Token) (tokens : List Token) : Except Malformed (Piece × List Token) := do
  let (name, rest) ← objectKey ending tokens
  match rest with
  | sign :: rest =>
    if sign.kind = .colon ∨ sign.kind = .eq then
      let (text, rest) ← value ending rest
      .ok (⟨String.ofList name, String.ofList text⟩, rest)
    else .error (unexpected ending (.token .colon) (sign :: rest))
  | [] => .error (unexpected ending (.token .colon) [])

theorem rawArgument_length {ending opening : Token} {expected : List TokenKind}
    {text found : List Char} {tokens rest : List Token}
    (h : rawArgument ending opening expected text tokens = .ok (found, rest)) :
    rest.length < tokens.length := by
  fun_induction rawArgument with grind

theorem nestedValue_length {ending opening : Token} {depth : Nat}
    {text found : List Char} {tokens rest : List Token}
    (h : nestedValue ending opening depth text tokens = .ok (found, rest)) :
    rest.length < tokens.length := by
  fun_induction nestedValue with grind

theorem moreNames_length (tokens : List Token) :
    (moreNames tokens).2.length ≤ tokens.length := by
  fun_induction moreNames with grind

theorem expect_length {ending found : Token} {kind : TokenKind} {tokens rest : List Token}
    (h : expect ending kind tokens = .ok (found, rest)) : rest.length < tokens.length := by
  unfold expect at h
  grind

theorem value_length {ending : Token} {found : List Char} {tokens rest : List Token}
    (h : value ending tokens = .ok (found, rest)) : rest.length < tokens.length := by
  unfold value at h
  split at h
  · cases h
  · split at h <;> try grind
    all_goals have := nestedValue_length h; grind

theorem objectKey_length {ending : Token} {found : List Char} {tokens rest : List Token}
    (h : objectKey ending tokens = .ok (found, rest)) : rest.length < tokens.length := by
  unfold objectKey at h
  grind

theorem entry_length {ending : Token} {piece : Piece} {tokens rest : List Token}
    (h : entry ending tokens = .ok (piece, rest)) : rest.length < tokens.length := by
  unfold entry at h
  cases hk : objectKey ending tokens with
  | error _ => simp [hk, bind, Except.bind] at h
  | ok read =>
    have hkey := objectKey_length hk
    simp only [hk, bind, Except.bind] at h
    split at h
    · next sign after hsign =>
      split at h
      · cases hv : value ending after with
        | error _ => simp [hv] at h
        | ok found =>
          have hvalue := value_length hv
          simp only [hv, Except.ok.injEq, Prod.mk.injEq] at h
          grind
      · cases h
    · cases h

-- The entries of an object after its opening brace, up to and with the closing one.
-- A comma may stand before the closing brace.
def object (ending : Token) (tokens : List Token) : Except Malformed (List Piece × List Token) :=
  if kindAt tokens = .rBrace then .ok ([], tokens.tail)
  else
    match h : entry ending tokens with
    | .error error => .error error
    | .ok (piece, rest) =>
      have := entry_length h
      match kindAt rest with
      | .comma => (object ending rest.tail).map fun read => (piece :: read.1, read.2)
      | .rBrace => .ok ([piece], rest.tail)
      | _ => .error (unexpected ending .commaOrBrace rest)
termination_by tokens.length
decreasing_by simp only [List.length_tail]; omega

theorem object_length {ending : Token} {pieces : List Piece} {tokens rest : List Token}
    (h : object ending tokens = .ok (pieces, rest)) : rest.length < tokens.length := by
  fun_induction object generalizing pieces rest with
  | case1 tokens hbrace => cases tokens <;> simp_all [kindAt]
  | case2 => cases h
  | case3 tokens _ piece after hentry _ _ ih =>
    simp only [Except.map] at h
    split at h
    · cases h
    · next read hread =>
      have := ih hread
      have := entry_length hentry
      grind
  | case4 tokens _ piece after hentry _ _ =>
    have := entry_length hentry
    grind
  | case5 => cases h

-- The argument of `key` after the opening parenthesis. An object contributes its own entries
-- in place of the key, and a lone string is decoded.
def argument (ending opening : Token) (key : String) :
    List Token → Except Malformed (List Piece × List Token)
  | token :: rest => do
    if token.kind = .lBrace then
      let (pieces, rest) ← object ending rest
      let (_, rest) ← expect ending .rParen rest
      .ok (pieces, rest)
    else if token.kind = .string ∧ kindAt rest = .rParen then
      .ok ([⟨key, String.ofList (Literal.decode token.text)⟩], rest.tail)
    else
      let (text, rest) ← rawArgument ending opening [.rParen] [] (token :: rest)
      .ok ([⟨key, String.ofList text⟩], rest)
  | [] => do
    let (text, rest) ← rawArgument ending opening [.rParen] [] []
    .ok ([⟨key, String.ofList text⟩], rest)

-- `refl`, `meta("text")`, `range(0, 100)`, `{"doc": "x", "min": 0}` or `meta({"doc": "x"})`.
def item (ending : Token) (tokens : List Token) : Except Malformed (List Piece × List Token) :=
  match kindAt tokens with
  | .lBrace => object ending tokens.tail
  | .ident | .colonColon => do
    let (name, rest) ← key ending tokens
    match rest with
    | opening :: inner =>
      if opening.kind = .lParen then argument ending opening (String.ofList name) inner
      else .ok ([Piece.marker (String.ofList name)], rest)
    | [] => .ok ([Piece.marker (String.ofList name)], rest)
  | _ => .error (unexpected ending .metadataKey tokens)

theorem key_length {ending : Token} {name : List Char} {tokens rest : List Token}
    (h : key ending tokens = .ok (name, rest)) : rest.length < tokens.length := by
  simp only [key, bind, Except.bind] at h
  split at h
  · cases h
  · next read hread =>
    have hfirst := expect_length hread
    have hmore := moreNames_length read.2
    simp only [Except.ok.injEq, Prod.mk.injEq] at h
    have : (if decide (kindAt tokens = .colonColon) = true then tokens.tail else tokens).length
        ≤ tokens.length := by split <;> simp
    grind

theorem argument_length {ending opening : Token} {key : String} {pieces : List Piece}
    {tokens rest : List Token} (h : argument ending opening key tokens = .ok (pieces, rest)) :
    rest.length < tokens.length := by
  cases tokens with
  | nil => simp [argument, rawArgument, bind, Except.bind] at h
  | cons token tokens =>
    simp only [argument, bind, Except.bind] at h
    split at h
    · split at h
      · cases h
      · next read hread =>
        have := object_length hread
        split at h
        · cases h
        · next close hclose =>
          have := expect_length hclose
          grind
    · split at h
      · grind
      · split at h
        · cases h
        · next read hread =>
          have := rawArgument_length hread
          grind

theorem item_length {ending : Token} {pieces : List Piece} {tokens rest : List Token}
    (h : item ending tokens = .ok (pieces, rest)) : rest.length < tokens.length := by
  have hkey : ∀ {name : List Char} {after : List Token}, key ending tokens = .ok (name, after) →
      (match after with
        | opening :: inner =>
          if opening.kind = TokenKind.lParen then argument ending opening (String.ofList name) inner
          else .ok ([Piece.marker (String.ofList name)], after)
        | [] => .ok ([Piece.marker (String.ofList name)], after)) = .ok (pieces, rest) →
      rest.length < tokens.length := by
    intro name after hk h
    have := key_length hk
    split at h
    · split at h
      · have := argument_length h
        grind
      · grind
    · grind
  unfold item at h
  split at h
  · have := object_length h
    grind
  · cases hk : key ending tokens with
    | error _ => simp [hk, bind, Except.bind] at h
    | ok read => exact hkey hk (by simpa [hk, bind, Except.bind] using h)
  · cases hk : key ending tokens with
    | error _ => simp [hk, bind, Except.bind] at h
    | ok read => exact hkey hk (by simpa [hk, bind, Except.bind] using h)
  · cases h

-- A comma may follow the last item.
def items (ending : Token) (tokens : List Token) : Except Malformed (List Piece) :=
  if tokens.isEmpty then .ok []
  else
    match h : item ending tokens with
    | .error error => .error error
    | .ok (pieces, rest) =>
      have := item_length h
      match rest with
      | [] => .ok pieces
      | separator :: more =>
        if separator.kind = .comma then (items ending more).map (pieces ++ ·)
        else .error (unexpected ending (.token .comma) (separator :: more))
termination_by tokens.length
decreasing_by grind

end Attribute

-- The pieces of attribute text. Blank text and a lone `null` have none.
def ofAttributeText (text : List Char) : Except Malformed (List Piece) :=
  let trimmed := Text.trim text
  if trimmed.isEmpty || trimmed == Piece.nullValue.toList then .ok []
  else
    let tokens := scan text
    Attribute.items tokens.ending tokens.items

end Reflection.Metadata
