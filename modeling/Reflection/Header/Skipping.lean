import Reflection.Declaration
import Reflection.Header.Reading

namespace Reflection.Header

-- The rest of an attribute block after `[[`. The first `]]` closes it, even inside brackets that
-- are still open, so that malformed text stays with its own declaration.
def attributeBlock (ending opening : Token) (text : List Char) : List Token → Read AnnotationBlock
  | [] => .failed (.unterminated .attribute opening.span) []
  | token :: rest =>
    if token.kind = .rBracket ∧ kindAt rest = .rBracket then
      .done ⟨.attribute, String.ofList (Text.trim (text ++ token.lead)),
        opening.span.merge (spanAt ending rest)⟩ rest.tail
    else attributeBlock ending opening (text ++ token.spelled) rest

-- What a reader leaves is always a tail of the tokens it was given.
theorem attributeBlock_suffix (ending opening : Token) (text : List Char) (tokens : List Token) :
    (attributeBlock ending opening text tokens).rest <:+ tokens := by
  fun_induction attributeBlock with
  | case1 => simp
  | case2 _ token rest _ => exact (List.tail_suffix rest).trans (List.suffix_cons token rest)
  | case3 _ token rest _ ih => exact ih.trans (List.suffix_cons token rest)

theorem attributeBlock_length {ending opening : Token} {text : List Char} {tokens rest : List Token}
    {block : AnnotationBlock}
    (h : attributeBlock ending opening text tokens = .done block rest) :
    rest.length ≤ tokens.length := by
  have := attributeBlock_suffix ending opening text tokens
  rw [h] at this
  exact this.length_le

-- The rest of a group, `depth` delimiters deep. Delimiters are counted without regard to their
-- kind.
def nestedGroup (ending opening : Token) (depth : Nat) : List Token → Read Unit
  | [] => .failed (.unterminated .delimiters opening.span) []
  | token :: rest =>
    if token.kind = .attrOpen then
      match h : attributeBlock ending token [] rest with
      | .done _ after =>
        have := attributeBlock_length h
        nestedGroup ending opening depth after
      | .failed error after => .failed error after
    else if token.kind.isOpen then nestedGroup ending opening (depth + 1) rest
    else if token.kind.isClose then
      if depth ≤ 1 then .done () rest else nestedGroup ending opening (depth - 1) rest
    else nestedGroup ending opening depth rest
termination_by tokens => tokens.length
decreasing_by all_goals simp only [List.length_cons]; omega

-- The rest of the group that `opening` opens.
def skipGroup (ending opening : Token) (tokens : List Token) : Read Unit :=
  if opening.kind = .attrOpen then (attributeBlock ending opening [] tokens).map fun _ => ()
  else nestedGroup ending opening 1 tokens

theorem nestedGroup_suffix (ending opening : Token) (depth : Nat) (tokens : List Token) :
    (nestedGroup ending opening depth tokens).rest <:+ tokens := by
  fun_induction nestedGroup with
    grind [attributeBlock_suffix, Read.suffix_cons, Read.suffix_of_done, Read.suffix_of_failed,
      List.suffix_cons, List.IsSuffix.trans, Read.rest_done, Read.rest_failed, List.suffix_refl]

theorem skipGroup_suffix (ending opening : Token) (tokens : List Token) :
    (skipGroup ending opening tokens).rest <:+ tokens := by
  unfold skipGroup
  split
  · simpa using attributeBlock_suffix ending opening [] tokens
  · exact nestedGroup_suffix ending opening 1 tokens

theorem skipGroup_length {ending opening : Token} {tokens rest : List Token}
    (h : skipGroup ending opening tokens = .done () rest) : rest.length ≤ tokens.length := by
  have := skipGroup_suffix ending opening tokens
  rw [h] at this
  exact this.length_le

-- An argument list in parentheses, if one comes next.
def skipParens (ending : Token) : List Token → Read Unit
  | [] => .done () []
  | token :: rest =>
    if token.kind = .lParen then skipGroup ending token rest else .done () (token :: rest)

theorem skipParens_suffix (ending : Token) (tokens : List Token) :
    (skipParens ending tokens).rest <:+ tokens := by
  unfold skipParens
  grind [skipGroup_suffix, Read.suffix_cons, Read.rest_done, List.suffix_refl]

theorem skipParens_length {ending : Token} {tokens rest : List Token}
    (h : skipParens ending tokens = .done () rest) : rest.length ≤ tokens.length := by
  have := skipParens_suffix ending tokens
  rw [h] at this
  exact this.length_le

-- The rest of `<...>`, `depth` angle brackets deep.
def skipAngles (ending opening : Token) (depth : Nat) : List Token → Read Unit
  | [] => .failed (.unterminated .templateArguments opening.span) []
  | token :: rest =>
    match token.kind with
    | .lt => skipAngles ending opening (depth + 1) rest
    | .gt => if depth ≤ 1 then .done () rest else skipAngles ending opening (depth - 1) rest
    | .semicolon | .rBrace =>
      .failed (.unterminated .templateArguments opening.span) (token :: rest)
    | kind =>
      if kind.isOpen then
        match h : skipGroup ending token rest with
        | .done _ after =>
          have := skipGroup_length h
          skipAngles ending opening depth after
        | .failed error after => .failed error after
      else skipAngles ending opening depth rest
termination_by tokens => tokens.length
decreasing_by all_goals simp only [List.length_cons]; omega

theorem skipAngles_suffix (ending opening : Token) (depth : Nat) (tokens : List Token) :
    (skipAngles ending opening depth tokens).rest <:+ tokens := by
  fun_induction skipAngles with
    grind [skipGroup_suffix, Read.suffix_cons, Read.suffix_of_done, Read.suffix_of_failed,
      List.suffix_cons, List.IsSuffix.trans, Read.rest_done, Read.rest_failed, List.suffix_refl]

theorem skipAngles_length {ending opening : Token} {depth : Nat} {tokens rest : List Token}
    (h : skipAngles ending opening depth tokens = .done () rest) :
    rest.length ≤ tokens.length := by
  have := skipAngles_suffix ending opening depth tokens
  rw [h] at this
  exact this.length_le

-- An initializer or the width of a bit-field, up to the next `,` or `;`.
def skipInitializer (ending : Token) : List Token → Read Unit
  | [] => .done () []
  | token :: rest =>
    match token.kind with
    | .comma | .semicolon | .rBrace => .done () (token :: rest)
    | kind =>
      if kind.isOpen then
        match h : skipGroup ending token rest with
        | .done _ after =>
          have := skipGroup_length h
          skipInitializer ending after
        | .failed error after => .failed error after
      else skipInitializer ending rest
termination_by tokens => tokens.length
decreasing_by all_goals simp only [List.length_cons]; omega

theorem skipInitializer_suffix (ending : Token) (tokens : List Token) :
    (skipInitializer ending tokens).rest <:+ tokens := by
  fun_induction skipInitializer with
    grind [skipGroup_suffix, Read.suffix_cons, Read.suffix_of_done, Read.suffix_of_failed,
      List.suffix_cons, List.IsSuffix.trans, Read.rest_done, Read.rest_failed, List.suffix_refl]

theorem skipInitializer_length {ending : Token} {tokens rest : List Token}
    (h : skipInitializer ending tokens = .done () rest) : rest.length ≤ tokens.length := by
  have := skipInitializer_suffix ending tokens
  rw [h] at this
  exact this.length_le

-- What has been seen of a declaration that is passed over.
structure Passed where
  parameters : Bool
  equals : Bool
  deriving Repr, DecidableEq

def Passed.nothing : Passed := ⟨false, false⟩

-- A declaration that the tree does not model. It ends at its `;`, or, once a parameter list and
-- no `=` has been seen, at the end of the next group in braces, which is then a function body.
def skipDeclaration (ending : Token) (passed : Passed) : List Token → Read Unit
  | [] => .failed (unexpected ending .semicolon []) []
  | token :: rest =>
    match token.kind with
    | .semicolon => .done () rest
    | .rBrace => .failed (unexpected ending .semicolon (token :: rest)) (token :: rest)
    | .eq => skipDeclaration ending { passed with equals := true } rest
    | .lParen =>
      match h : skipGroup ending token rest with
      | .done _ after =>
        have := skipGroup_length h
        let parameters := passed.parameters || !passed.equals
        skipDeclaration ending { passed with parameters } after
      | .failed error after => .failed error after
    | .lBrace =>
      match h : skipGroup ending token rest with
      | .done _ after =>
        have := skipGroup_length h
        if passed.parameters && !passed.equals then .done () (skipOne .semicolon after)
        else skipDeclaration ending passed after
      | .failed error after => .failed error after
    | kind =>
      if kind.isOpen then
        match h : skipGroup ending token rest with
        | .done _ after =>
          have := skipGroup_length h
          skipDeclaration ending passed after
        | .failed error after => .failed error after
      else skipDeclaration ending passed rest
termination_by tokens => tokens.length
decreasing_by all_goals simp only [List.length_cons]; omega

theorem skipDeclaration_suffix (ending : Token) (passed : Passed) (tokens : List Token) :
    (skipDeclaration ending passed tokens).rest <:+ tokens := by
  fun_induction skipDeclaration with
    grind [skipGroup_suffix, skipOne_suffix, Read.suffix_cons, Read.suffix_of_done,
      Read.suffix_of_failed, List.suffix_cons, List.IsSuffix.trans, Read.rest_done,
      Read.rest_failed, List.suffix_refl]

-- Where reading goes on after an error: behind the next `;`, or behind a group in braces with
-- its `;`, or before the `}` of the enclosing scope.
def recover (depth : Nat) : List Token → List Token
  | [] => []
  | token :: rest =>
    match token.kind with
    | .semicolon => if depth = 0 then rest else recover depth rest
    | .rBrace =>
      if depth = 0 then token :: rest
      else if depth = 1 then skipOne .semicolon rest
      else recover (depth - 1) rest
    | .attrOpen => recover (depth + 2) rest
    | kind =>
      if kind.isOpen then recover (depth + 1) rest
      else if kind.isClose then recover (depth - 1) rest
      else recover depth rest

theorem recover_suffix (depth : Nat) (tokens : List Token) : recover depth tokens <:+ tokens := by
  fun_induction recover with
    grind [skipOne_suffix, Read.suffix_cons, List.suffix_cons, List.IsSuffix.trans,
      List.suffix_refl]

end Reflection.Header
