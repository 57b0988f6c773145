import Reflection.Proofs.Header.Nested
import Reflection.Proofs.Header.SingleClass

namespace Reflection.Header

variable {ending : Token}

-- Two closing brackets in a row.
structure BlockEnd where
  first : Token
  second : Token
  first_kind : first.kind = .rBracket
  second_kind : second.kind = .rBracket

def BlockEnd.behind (close : BlockEnd) (rest : List Token) : List Token :=
  close.first :: close.second :: rest

def NoBracket (tokens : List Token) : Prop := ∀ token ∈ tokens, token.kind ≠ .rBracket

theorem NoBracket.tail {token : Token} {rest : List Token} (h : NoBracket (token :: rest)) :
    NoBracket rest := fun other hmem => h other (List.mem_cons_of_mem token hmem)

-- The annotation of a block with these tokens in it.
def blockOf (opening : Token) (inner : List Token) (close : BlockEnd) : AnnotationBlock :=
  ⟨.attribute, String.ofList (Text.trim (inner.flatMap Token.spelled ++ close.first.lead)),
    opening.span.merge close.second.span⟩

theorem NoBracket.noPair {inner : List Token} (h : NoBracket inner) (first : Token) :
    NoBracketPair inner first := by
  induction inner with
  | nil => exact .singleton first
  | cons token inner ih =>
      have hkind := h token List.mem_cons_self
      exact List.isChain_cons.mpr ⟨fun _ _ hbracket => absurd hbracket hkind, ih h.tail⟩

theorem attributeBlock_closes {inner : List Token} (h : NoBracket inner) (opening : Token)
    (close : BlockEnd) (rest : List Token) :
    attributeBlock ending opening [] (inner ++ close.behind rest) =
      .done (blockOf opening inner close) rest :=
  attributeBlock_nested close.first_kind close.second_kind (h.noPair close.first) opening [] rest

-- Without a closing bracket a block takes all tokens there are.
theorem attributeBlock_unterminated {tokens : List Token} (h : NoBracket tokens) (opening : Token)
    (text : List Char) :
    attributeBlock ending opening text tokens =
      .failed (.unterminated .attribute opening.span) [] := by
  induction tokens generalizing text with
  | nil => rw [attributeBlock]
  | cons token rest ih =>
      have hkind := h token List.mem_cons_self
      rw [attributeBlock, if_neg fun hclose => hkind hclose.1, ih h.tail]

-- The tokens of `struct [[...]] Name {`.
structure AttributedStruct where
  keyword : Token
  opening : Token
  inner : List Token
  close : BlockEnd
  name : Token
  brace : Token
  keyword_kind : keyword.kind = .structKw
  opening_kind : opening.kind = .attrOpen
  inner_kinds : NoBracket inner
  name_kind : name.kind = .ident
  name_final : isFinal name = false
  brace_kind : brace.kind = .lBrace

-- The brackets that close a block at byte `start`, behind skipped text.
def closingAt (start : Nat) (lead : List Char) : BlockEnd where
  first := ⟨.rBracket, start, lead, [']']⟩
  second := ⟨.rBracket, start + 1, [], [']']⟩
  first_kind := rfl
  second_kind := rfl

theorem isFinal_letter (start : Nat) (lead : List Char) (letter : Char) :
    isFinal ⟨.ident, start, lead, [letter]⟩ = false := by
  simp [isFinal]

-- The tokens at the beginning of a header, with a name of one letter, if the text of the block
-- ends at byte `start`.
def structAt (start : Nat) (letter : Char) (inner : List Token) (h : NoBracket inner) :
    AttributedStruct where
  keyword := ⟨.structKw, 0, [], "struct".toList⟩
  opening := ⟨.attrOpen, 7, [' '], "[[".toList⟩
  inner := inner
  close := closingAt start []
  name := ⟨.ident, start + 3, [' '], [letter]⟩
  brace := ⟨.lBrace, start + 5, [' '], ['{']⟩
  keyword_kind := rfl
  opening_kind := rfl
  inner_kinds := h
  name_kind := rfl
  name_final := isFinal_letter (start + 3) [' '] letter
  brace_kind := rfl

namespace AttributedStruct

variable (head : AttributedStruct)

-- The tokens behind the keyword, in front of the body of the struct.
def front (body : List Token) : List Token :=
  head.opening :: (head.inner ++ head.close.behind (head.name :: head.brace :: body))

def block : AnnotationBlock := blockOf head.opening head.inner head.close

theorem pastSpecifiers_front (body : List Token) :
    pastSpecifiers (head.front body) = some (head.name :: head.brace :: body) := by
  rw [front, pastSpecifiers_cons, head.opening_kind]
  dsimp only
  rw [BlockEnd.behind, pastAttribute_nested head.close.first_kind head.close.second_kind
    (head.inner_kinds.noPair head.close.first), pastSpecifiers_cons, head.name_kind]

theorem specifiers_front (body : List Token) :
    specifiers ending (head.front body) = .done [head.block] (head.name :: head.brace :: body) := by
  rw [front, specifiers_cons, head.opening_kind]
  dsimp only
  rw [attributeBlock_closes head.inner_kinds, Read.bind_done, specifiers_cons, head.name_kind]
  rfl

def opened : ClassOpening := ⟨[head.block], [head.name.word], true⟩

section Declared

variable (mode : ErrorMode)

-- The members of the struct, read up to and with the brace that closes it.
abbrev members (ending : Token) (body : List Token) : Recorded (List Member) body.length :=
  classBody mode ending (some head.name.word) .publicAccess body

theorem classKey_keyword : classKey head.keyword = .structKey := by
  rw [classKey, head.keyword_kind]

theorem opensClass_front (body : List Token) :
    OpensClass ending head.keyword (head.front body) head.opened body :=
  opensClass_named (by simp [isClassKey, head.keyword_kind]) head.name_kind head.name_final
    head.brace_kind (head.pastSpecifiers_front body) (head.specifiers_front body)

theorem bodyOf_front (body : List Token) :
    bodyOf mode ending head.keyword head.opened body = head.members mode ending body := by
  rw [bodyOf, head.classKey_keyword]
  rfl

-- If the members can be read up to the `;` that ends the header, the struct is what it declares.
theorem scope_front {body : List Token} {semicolon : Token} {members : List Member}
    (hsemicolon : semicolon.kind = .semicolon)
    (hmembers : (head.members mode ending body).outcome = .ok members)
    (hrest : (head.members mode ending body).rest = [semicolon]) :
    (scope mode ending false (head.keyword :: head.front body)).outcome =
        .ok [.classDecl (head.opened.head ending [] false head.keyword true [semicolon]) members] ∧
      (scope mode ending false (head.keyword :: head.front body)).recovered =
        (head.members mode ending body).recovered := by
  rw [← head.bodyOf_front] at hmembers hrest ⊢
  have hextends := (head.opensClass_front body).scope_extends false hsemicolon hmembers hrest
  rw [hextends.outcome, hextends.recovered, scope_nil]
  exact ⟨rfl, List.append_nil _⟩

end Declared

-- If the body of the struct does not end, that is reported.
theorem scope_front_failed {body : List Token} {error : ParseError}
    (hmembers : (head.members .tolerant ending body).outcome = .error error) :
    (scope .tolerant ending false (head.keyword :: head.front body)).recovered ≠ [] := by
  rw [← head.bodyOf_front] at hmembers
  exact (head.opensClass_front body).scope_reports hmembers

end AttributedStruct

end Reflection.Header
