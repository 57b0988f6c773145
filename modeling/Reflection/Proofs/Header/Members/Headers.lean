import Reflection.Proofs.Header.Members.Bodies

namespace Reflection.Header

variable {ending : Token}

-- The tokens of a class in front of its body.
structure ClassFront where
  keyword : Token
  attributes : List AttributeTokens
  name : Token
  brace : Token
  keyword_kind : isClassKey keyword.kind = true
  name_kind : name.kind = .ident
  name_final : isFinal name = false
  brace_kind : brace.kind = .lBrace

namespace ClassFront

variable (front : ClassFront)

-- The tokens behind the keyword.
def behind (body : List Token) : List Token :=
  front.attributes.flatMap AttributeTokens.tokens ++ front.name :: front.brace :: body

theorem pastAttributes (attributes : List AttributeTokens) {token : Token} {rest : List Token}
    (h : token.kind = .ident) :
    pastSpecifiers (attributes.flatMap AttributeTokens.tokens ++ token :: rest) =
      some (token :: rest) := by
  induction attributes with
  | nil => rw [List.flatMap_nil, List.nil_append, pastSpecifiers_cons, h]
  | cons block attributes ih =>
      rw [List.flatMap_cons, List.append_assoc, AttributeTokens.tokens, List.cons_append,
        pastSpecifiers_cons, block.opening_kind, List.append_assoc]
      dsimp only
      rw [List.cons_append, List.singleton_append,
        pastAttribute_nested block.close.first_kind block.close.second_kind block.no_pair, ih]

theorem specifiers_attributes (attributes : List AttributeTokens) {token : Token}
    {rest : List Token} (h : token.kind = .ident) :
    specifiers ending (attributes.flatMap AttributeTokens.tokens ++ token :: rest) =
      .done (attributes.map AttributeTokens.block) (token :: rest) := by
  induction attributes with
  | nil => rw [List.flatMap_nil, List.nil_append, specifiers_cons, h]; rfl
  | cons block attributes ih =>
      obtain ⟨tokens, htokens, hblock⟩ := @block.attributeBlock_tokens ending
        (attributes.flatMap AttributeTokens.tokens ++ token :: rest)
      rw [List.flatMap_cons, List.append_assoc, htokens, specifiers_cons, block.opening_kind]
      dsimp only
      rw [hblock, Read.bind_done, ih]
      rfl

def opened : ClassOpening := ⟨front.attributes.map AttributeTokens.block, [front.name.word], true⟩

theorem opensClass_behind (body : List Token) :
    OpensClass ending front.keyword (front.behind body) front.opened body :=
  opensClass_named front.keyword_kind front.name_kind front.name_final front.brace_kind
    (pastAttributes front.attributes front.name_kind)
    (specifiers_attributes front.attributes front.name_kind)

end ClassFront

-- The tokens of a class with a body of such members.
structure ClassHeader where
  front : ClassFront
  entries : List MemberEntry
  closing : Token
  semicolon : Token
  closing_kind : closing.kind = .rBrace
  semicolon_kind : semicolon.kind = .semicolon
  fits : ∀ entry ∈ entries, entry.shape.Fits (some front.name.word)

namespace ClassHeader

variable (header : ClassHeader)

def tokens : List Token :=
  header.front.keyword :: header.front.behind
    (bodyTokens header.entries header.closing [header.semicolon])

-- The class that is declared, without its place.
def entity : Entity :=
  .classDecl ⟨some header.front.name.word, classKey header.front.keyword, true, false,
      header.front.attributes.map AttributeTokens.block, .none⟩
    (declaredMembers (classKey header.front.keyword).defaultAccess header.entries)

theorem scope_tokens :
    ∃ entity, (scope .tolerant ending false header.tokens).outcome = .ok [entity] ∧
      entity.unplaced = header.entity.unplaced ∧
        (scope .tolerant ending false header.tokens).recovered = [] := by
  obtain ⟨members, hread, hdeclared, hreports, hleft⟩ := @classBody_entries ending
    (some header.front.name.word) (classKey header.front.keyword).defaultAccess header.entries
    header.fits none header.closing header.closing_kind [header.semicolon]
  have hextends := (header.front.opensClass_behind
    (bodyTokens header.entries header.closing [header.semicolon])).scope_extends false
      header.semicolon_kind hread hleft
  rw [scope_nil] at hextends
  refine ⟨.classDecl (header.front.opened.head ending [] false header.front.keyword true
    [header.semicolon]) members, hextends.outcome, ?_, ?_⟩
  · rw [entity, Entity.unplaced, Entity.unplaced, hdeclared]
    simp [ClassOpening.head, ClassFront.opened, ClassHead.unplaced, joinName]
  · rw [tokens, hextends.recovered, List.append_nil]
    exact hreports

-- A tolerant reading finds all members of the class, in order, and reports nothing.
theorem parse_tokens {text : List Char} (hscan : (scan text).items = header.tokens) :
    ∃ unit, parse .tolerant text = .ok ⟨unit, []⟩ ∧
      unplacedEntities unit.entities = unplacedEntities [header.entity] := by
  obtain ⟨entity, hread, hentity, hreports⟩ := @scope_tokens (scan text).ending header
  rw [← hscan] at hread hreports
  rw [parse_of_ok hread, hreports]
  exact ⟨_, rfl, by simp [unplacedEntities, hentity]⟩

section Sample

def tokenAt (kind : TokenKind) (start : Nat) (lead text : String) : Token :=
  ⟨kind, start, lead.toList, text.toList⟩

-- `int a, *b [[x]] = 1; ///< two`
def sampleData : MemberEntry where
  leading := []
  shape := .data {
    keyword := none
    type := [.name (tokenAt .ident 11 " " "int") rfl]
    first := ⟨[], tokenAt .ident 15 " " "a", [], .absent, nofun, rfl⟩
    more := [(tokenAt .comma 16 "" ",",
      { marks := [tokenAt .star 18 " " "*"]
        name := tokenAt .ident 19 "" "b"
        suffixes := [.attributed ⟨tokenAt .attrOpen 21 " " "[[", [tokenAt .ident 23 "" "x"],
          ⟨tokenAt .rBracket 24 "" "]", tokenAt .rBracket 25 "" "]", rfl, rfl⟩, rfl,
          .cons_cons nofun (.singleton _)⟩]
        initial := .marked (tokenAt .eq 27 " " "=") [tokenAt .number 29 " " "1"] (by decide)
          (.token (by decide) rfl rfl .nil)
        mark_kinds := by simp [tokenAt]
        name_kind := rfl })]
    semicolon := tokenAt .semicolon 30 "" ";"
    comma_kinds := by simp [tokenAt]
    semicolon_kind := rfl }
  trailing := some ⟨tokenAt .docComment 32 " " "///< two", by decide⟩
  runs := .nil

-- `S() : a(0) {}`
def sampleConstructor : MemberEntry where
  leading := []
  shape := .function {
    keyword := none
    type := []
    name := .constructor (tokenAt .ident 42 "\n " "S") rfl
    parameters := ⟨tokenAt .lParen 43 "" "(", [], tokenAt .rParen 44 "" ")", rfl, rfl, .nil,
      by decide⟩
    qualifiers := []
    ending := .constructed (tokenAt .colon 46 " " ":")
      ⟨[.name (tokenAt .ident 48 " " "a") rfl], .lParen, [tokenAt .lParen 49 "" "(",
        tokenAt .number 50 "" "0", tokenAt .rParen 51 "" ")"], none,
        @WholeGroup.delimiters (tokenAt .lParen 49 "" "(") (tokenAt .rParen 51 "" ")")
          [tokenAt .number 50 "" "0"] ⟨rfl, nofun, rfl⟩ (.token rfl rfl .nil), by decide, nofun⟩
      [] [tokenAt .lBrace 53 " " "\x7b", tokenAt .rBrace 54 "" "\x7d"] rfl
      (by simp)
      (@WholeGroup.delimiters (tokenAt .lBrace 53 " " "\x7b") (tokenAt .rBrace 54 "" "\x7d") []
        ⟨rfl, nofun, rfl⟩ .nil) }
  trailing := none
  runs := .nil

-- `private:`
def sampleLabel : MemberEntry :=
  ⟨[], .label (tokenAt .privateKw 56 " " "private") (tokenAt .colon 63 "" ":") (by decide) rfl,
    none, .nil⟩

-- `/// c` and `bool operator==(S s) const;`
def sampleOperator : MemberEntry where
  leading := [.docs (tokenAt .docComment 65 " " "/// c") [] (by decide)]
  shape := .function {
    keyword := none
    type := [.name (tokenAt .ident 72 "\n " "bool") rfl]
    name := .operator (tokenAt .operatorKw 77 " " "operator")
      (.spelled (tokenAt .eq 85 "" "=") [tokenAt .eq 86 "" "="] (by decide)) rfl
    parameters := ⟨tokenAt .lParen 87 "" "(", [tokenAt .ident 88 "" "S", tokenAt .ident 90 " " "s"],
      tokenAt .rParen 91 "" ")", rfl, rfl, .token rfl rfl (.token rfl rfl .nil), by decide⟩
    qualifiers := [.type (.name (tokenAt .ident 93 " " "const") rfl)]
    ending := .declared (tokenAt .semicolon 98 "" ";") rfl }
  trailing := none
  runs := .singleton _

def sample : ClassHeader where
  front := ⟨tokenAt .structKw 0 "" "struct", [], tokenAt .ident 7 " " "S",
    tokenAt .lBrace 9 " " "\x7b", rfl, rfl, by decide, rfl⟩
  entries := [sampleData, sampleConstructor, sampleLabel, sampleOperator]
  closing := tokenAt .rBrace 100 " " "\x7d"
  semicolon := tokenAt .semicolon 101 "" ";"
  closing_kind := rfl
  semicolon_kind := rfl
  fits := by
    intro entry hmem
    simp only [List.mem_cons, List.not_mem_nil, or_false] at hmem
    rcases hmem with rfl | rfl | rfl | rfl
    · trivial
    · rfl
    · trivial
    · trivial

-- Two fields with a comment behind them, a constructor, a label and an operator.
theorem parse_sample :
    let text := ("struct S \x7b int a, *b [[x]] = 1; ///< two\n S() : a(0) \x7b\x7d " ++
      "private: /// c\n bool operator==(S s) const; \x7d;").toList
    (scan text).items = sample.tokens ∧
      ∃ unit, parse .tolerant text = .ok ⟨unit, []⟩ ∧
        unplacedEntities unit.entities = unplacedEntities [sample.entity] := by
  have hscan : (scan ("struct S \x7b int a, *b [[x]] = 1; ///< two\n S() : a(0) \x7b\x7d " ++
      "private: /// c\n bool operator==(S s) const; \x7d;").toList).items = sample.tokens := by
    decide +kernel
  exact ⟨hscan, sample.parse_tokens hscan⟩

end Sample

end ClassHeader

end Reflection.Header
