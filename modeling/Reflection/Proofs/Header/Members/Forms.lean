import Reflection.Proofs.Header.AttributedStruct

namespace Reflection.Header

-- What stands between angle brackets.
inductive Angled : List Token → Prop where
  | nil : Angled []
  | token {token : Token} {rest : List Token} (hkind : token.kind ∉ [.lt, .gt, .semicolon])
      (hopen : token.kind.isOpen = false) (hclose : token.kind.isClose = false)
      (hrest : Angled rest) : Angled (token :: rest)
  | group {kind : TokenKind} {group rest : List Token} (hgroup : WholeGroup kind group)
      (hrest : Angled rest) : Angled (group ++ rest)
  | angles {opening closing : Token} {inner rest : List Token} (hopening : opening.kind = .lt)
      (hclosing : closing.kind = .gt) (hinner : Angled inner) (hrest : Angled rest) :
      Angled (opening :: (inner ++ closing :: rest))

-- A part of a type.
inductive TypePart where
  | name (token : Token) (hkind : token.kind = .ident)
  | mark (token : Token) (hkind : token.kind ∈ [.colonColon, .star, .amp])
  | arguments (opening : Token) (inner : List Token) (closing : Token)
      (hopening : opening.kind = .lt) (hinner : Angled inner) (hclosing : closing.kind = .gt)

namespace TypePart

def tokens : TypePart → List Token
  | name token _ | mark token _ => [token]
  | arguments opening inner closing _ _ _ => opening :: (inner ++ [closing])

def isName : TypePart → Bool
  | name .. => true
  | _ => false

end TypePart

-- The tokens of an attribute block.
structure AttributeTokens where
  opening : Token
  inner : List Token
  close : BlockEnd
  opening_kind : opening.kind = .attrOpen
  no_pair : NoBracketPair inner close.first

namespace AttributeTokens

variable (attributes : AttributeTokens)

def tokens : List Token :=
  attributes.opening :: (attributes.inner ++ [attributes.close.first, attributes.close.second])

def block : AnnotationBlock := blockOf attributes.opening attributes.inner attributes.close

end AttributeTokens

-- What may follow the name of a declarator.
inductive Suffix where
  | attributed (attributes : AttributeTokens)
  | bound (group : List Token) (hgroup : WholeGroup .lBracket group)

namespace Suffix

def tokens : Suffix → List Token
  | attributed attributes => attributes.tokens
  | bound group _ => group

def blocks : Suffix → List AnnotationBlock
  | attributed attributes => [attributes.block]
  | bound .. => []

end Suffix

-- An expression without commas or semicolons outside of groups.
inductive Value : List Token → Prop where
  | nil : Value []
  | token {token : Token} {rest : List Token} (hkind : token.kind ∉ [.comma, .semicolon])
      (hopen : token.kind.isOpen = false) (hclose : token.kind.isClose = false)
      (hrest : Value rest) : Value (token :: rest)
  | group {kind : TokenKind} {group rest : List Token} (hgroup : WholeGroup kind group)
      (hrest : Value rest) : Value (group ++ rest)

-- The width or the initial value of a declarator.
inductive Initial where
  | absent
  | marked (mark : Token) (value : List Token) (hmark : mark.kind ∈ [.colon, .eq])
      (hvalue : Value value)
  | braced (group : List Token) (hgroup : WholeGroup .lBrace group)

def Initial.tokens : Initial → List Token
  | absent => []
  | marked mark value _ _ => mark :: value
  | braced group _ => group

structure Declarator where
  marks : List Token
  name : Token
  suffixes : List Suffix
  initial : Initial
  mark_kinds : ∀ mark ∈ marks, mark.kind ∈ [.star, .amp]
  name_kind : name.kind = .ident

namespace Declarator

variable (declarator : Declarator)

def tokens : List Token :=
  declarator.marks ++ declarator.name ::
    (declarator.suffixes.flatMap Suffix.tokens ++ declarator.initial.tokens)

def blocks : List AnnotationBlock := declarator.suffixes.flatMap Suffix.blocks

end Declarator

-- A keyword that may stand in front of a declaration.
structure StaticKeyword where
  token : Token
  kind : token.kind = .staticKw

-- One or more data members of one type.
structure DataMember where
  keyword : Option StaticKeyword
  type : List TypePart
  first : Declarator
  more : List (Token × Declarator)
  semicolon : Token
  comma_kinds : ∀ entry ∈ more, entry.1.kind = .comma
  semicolon_kind : semicolon.kind = .semicolon

-- A declarator with the comma in front of it.
def commaTokens (entry : Token × Declarator) : List Token := entry.1 :: entry.2.tokens

-- Parameters in parentheses, which do not begin as a function pointer does.
structure Parameters where
  opening : Token
  inner : List Token
  closing : Token
  opening_kind : opening.kind = .lParen
  closing_kind : closing.kind = .rParen
  nested : Nested inner
  plain : kindAt (inner ++ [closing]) ∉ [.star, .amp]

def Parameters.tokens (parameters : Parameters) : List Token :=
  parameters.opening :: (parameters.inner ++ [parameters.closing])

-- What may follow the parameters of a function: names, `&`, groups in parentheses, and `->` with
-- a type.
inductive Qualifier where
  | type (part : TypePart)
  | arrow (token : Token) (hkind : token.kind = .arrow)
  | group (tokens : List Token) (hgroup : WholeGroup .lParen tokens)

def Qualifier.tokens : Qualifier → List Token
  | type part => part.tokens
  | arrow token _ => [token]
  | group tokens _ => tokens

-- A member or base with its initial value.
structure MemberInitializer where
  name : List TypePart
  kind : TokenKind
  group : List Token
  expansion : Option Token
  isGroup : WholeGroup kind group
  isValue : kind ∈ [.lParen, .lBrace]
  isExpansion : ∀ token ∈ expansion, token.kind = .ellipsis

def MemberInitializer.tokens (initializer : MemberInitializer) : List Token :=
  initializer.name.flatMap TypePart.tokens ++ (initializer.group ++ initializer.expansion.toList)

-- How the declaration of a function ends.
inductive FunctionEnd where
  | declared (semicolon : Token) (hsemicolon : semicolon.kind = .semicolon)
  -- `= 0;`, `= default;` or `= delete;`
  | assigned (equals value semicolon : Token) (hequals : equals.kind = .eq)
      (hvalue : value.kind ∈ [.number, .ident]) (hsemicolon : semicolon.kind = .semicolon)
  | body (group : List Token) (hgroup : WholeGroup .lBrace group)
  -- a body with member initializers before it
  | constructed (colon : Token) (first : MemberInitializer)
      (more : List (Token × MemberInitializer)) (group : List Token) (hcolon : colon.kind = .colon)
      (hcommas : ∀ entry ∈ more, entry.1.kind = .comma) (hgroup : WholeGroup .lBrace group)

def FunctionEnd.tokens : FunctionEnd → List Token
  | declared semicolon _ => [semicolon]
  | assigned equals value semicolon _ _ _ => [equals, value, semicolon]
  | body group _ => group
  | constructed colon first more group _ _ _ =>
    colon :: (first.tokens ++ (more.flatMap fun entry => entry.1 :: entry.2.tokens) ++ group)

-- What an operator function is called, behind the keyword.
inductive OperatorSymbol where
  | call (opening closing : Token) (hopening : opening.kind = .lParen)
      (hclosing : closing.kind = .rParen)
  | spelled (first : Token) (more : List Token)
      (hkinds : ∀ token ∈ first :: more, token.kind ∉ [.lParen, .semicolon, .rBrace])

namespace OperatorSymbol

def tokens : OperatorSymbol → List Token
  | call opening closing _ _ => [opening, closing]
  | spelled first more _ => first :: more

-- A space separates each name in it from what is before it.
def spelling (token : Token) : List Char :=
  if token.kind = .ident then ' ' :: token.text else token.text

def name : OperatorSymbol → String
  | call .. => "operator()"
  | spelled first more _ => "operator" ++ String.ofList ((first :: more).flatMap spelling)

end OperatorSymbol

inductive FunctionName where
  | regular (name : Token) (hkind : name.kind = .ident)
  | constructor (name : Token) (hkind : name.kind = .ident)
  | destructor (tilde name : Token) (htilde : tilde.kind = .tilde) (hkind : name.kind = .ident)
  | operator (keyword : Token) (symbol : OperatorSymbol) (hkeyword : keyword.kind = .operatorKw)

namespace FunctionName

def tokens : FunctionName → List Token
  | regular name _ | constructor name _ => [name]
  | destructor tilde name _ _ => [tilde, name]
  | operator keyword symbol _ => keyword :: symbol.tokens

def text : FunctionName → String
  | regular name _ | constructor name _ | destructor _ name _ _ => name.word
  | operator _ symbol _ => symbol.name

def kind : FunctionName → MethodKind
  | regular .. => .regular
  | constructor .. => .constructor
  | destructor .. => .destructor
  | operator .. => .operator

end FunctionName

structure MemberFunction where
  keyword : Option StaticKeyword
  -- the type of the result, or words such as `virtual` and `explicit`
  type : List TypePart
  name : FunctionName
  parameters : Parameters
  qualifiers : List Qualifier
  ending : FunctionEnd

-- Only constructors are called like their class, and a member function has a type.
def MemberFunction.Fits (className : Option String) (function : MemberFunction) : Prop :=
  match function.name with
  | .regular name _ => some name.word ≠ className ∧ function.type.any TypePart.isName = true
  | .constructor name _ => some name.word = className
  | .destructor .. | .operator .. => True

inductive MemberShape where
  | label (keyword colon : Token) (hkeyword : keyword.kind ∈ [.publicKw, .protectedKw, .privateKw])
      (hcolon : colon.kind = .colon)
  | data (member : DataMember)
  | function (member : MemberFunction)

-- An annotation in front of a declaration: consecutive comment lines, or an attribute block.
inductive Leading where
  | docs (first : Token) (more : List Token)
      (hdocs : ∀ token ∈ first :: more, isLeadingDoc token = true)
  | attributed (attributes : AttributeTokens)

namespace Leading

def tokens : Leading → List Token
  | docs first more _ => first :: more
  | attributed attributes => attributes.tokens

def block : Leading → AnnotationBlock
  | docs first more _ => docBlock first more
  | attributed attributes => attributes.block

def isDocs : Leading → Bool
  | docs .. => true
  | attributed _ => false

end Leading

-- The comment behind a declaration.
structure TrailingDoc where
  token : Token
  isTrailing : isTrailingDoc token = true

def TrailingDoc.block (doc : TrailingDoc) : AnnotationBlock :=
  ⟨.docComment, String.ofList (stripMark "///<".toList doc.token.text), doc.token.span⟩

-- A declaration of a class body with its annotations.
structure MemberEntry where
  leading : List Leading
  shape : MemberShape
  trailing : Option TrailingDoc
  -- consecutive comment lines are one annotation
  runs : List.IsChain (fun one next => one.isDocs = true → next.isDocs = false) leading

def keywordTokens (keyword : Option StaticKeyword) : List Token :=
  keyword.toList.map StaticKeyword.token

def DataMember.tokens (member : DataMember) : List Token :=
  keywordTokens member.keyword ++ (member.type.flatMap TypePart.tokens ++
    (member.first.tokens ++ (member.more.flatMap commaTokens ++ [member.semicolon])))

-- A function behind its name.
def MemberFunction.tail (function : MemberFunction) : List Token :=
  function.parameters.tokens ++
    (function.qualifiers.flatMap Qualifier.tokens ++ function.ending.tokens)

def MemberFunction.tokens (function : MemberFunction) : List Token :=
  keywordTokens function.keyword ++ (function.type.flatMap TypePart.tokens ++
    (function.name.tokens ++ function.tail))

def MemberShape.tokens : MemberShape → List Token
  | label keyword colon _ _ => [keyword, colon]
  | data member => member.tokens
  | function member => member.tokens

def MemberEntry.trailingTokens (entry : MemberEntry) : List Token :=
  entry.trailing.toList.map TrailingDoc.token

def MemberEntry.tokens (entry : MemberEntry) : List Token :=
  entry.leading.flatMap Leading.tokens ++ (entry.shape.tokens ++ entry.trailingTokens)

-- The members of a declaration between these annotations, without their places.
def DataMember.members (access : Access) (before after : List AnnotationBlock)
    (member : DataMember) : List Member :=
  (member.first :: member.more.map Prod.snd).map fun declarator =>
    .field ⟨declarator.name.word, member.keyword.isSome, access,
      before ++ declarator.blocks ++ after, .none⟩

def MemberFunction.member (access : Access) (annotations : List AnnotationBlock)
    (function : MemberFunction) : Member :=
  .method ⟨function.name.text, function.name.kind, function.keyword.isSome, access, annotations,
    .none⟩

def MemberShape.members (access : Access) (before after : List AnnotationBlock) :
    MemberShape → List Member
  | label .. => []
  | data member => member.members access before after
  | function member => [member.member access (before ++ after)]

-- The access in force behind a declaration.
def MemberShape.behind (access : Access) : MemberShape → Access
  | label keyword .. => accessOf keyword.kind
  | _ => access

def MemberShape.Fits (className : Option String) : MemberShape → Prop
  | function member => member.Fits className
  | _ => True

def MemberEntry.members (access : Access) (entry : MemberEntry) : List Member :=
  entry.shape.members access (entry.leading.map Leading.block)
    (entry.trailing.toList.map TrailingDoc.block)

-- The members of a class body, in order. What stands around an access label belongs to no member.
def declaredMembers (access : Access) : List MemberEntry → List Member
  | [] => []
  | entry :: entries =>
    entry.members access ++ declaredMembers (entry.shape.behind access) entries

end Reflection.Header
