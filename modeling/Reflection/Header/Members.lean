import Reflection.Header.Annotations

namespace Reflection.Header

-- The spelling of the operator after the keyword, up to its parameter list.
def operatorSymbol (ending : Token) : List Token → Read (List Char)
  | [] => .failed (unexpected ending .lParen []) []
  | token :: rest =>
    match token.kind with
    | .lParen => .done [] (token :: rest)
    | .semicolon | .rBrace =>
      .failed (unexpected ending .lParen (token :: rest)) (token :: rest)
    | .ident => (operatorSymbol ending rest).map (' ' :: token.text ++ ·)
    | _ => (operatorSymbol ending rest).map (token.text ++ ·)

def operatorName (ending : Token) (tokens : List Token) : Read String :=
  if kindAt tokens = .lParen ∧ kindAt tokens.tail = .rParen then
    .done "operator()" tokens.tail.tail
  else
    (operatorSymbol ending tokens).map fun symbol => "operator" ++ String.ofList symbol

theorem operatorSymbol_suffix (ending : Token) (tokens : List Token) :
    (operatorSymbol ending tokens).rest <:+ tokens := by
  fun_induction operatorSymbol with
    grind [Read.suffix_cons, Read.rest_done, Read.rest_failed, Read.rest_map, List.suffix_refl]

theorem operatorName_suffix (ending : Token) (tokens : List Token) :
    (operatorName ending tokens).rest <:+ tokens := by
  unfold operatorName
  split
  · exact (List.tail_suffix _).trans (List.tail_suffix _)
  · simpa using operatorSymbol_suffix ending tokens

-- The member initializers of a constructor, `a(1), b{2}, Base<T>(x)`, up to its body.
def skipMemberInitializers (ending : Token) : List Token → Read Unit
  | [] => .failed (unexpected ending .lParen []) []
  | token :: rest =>
    match token.kind with
    | .lParen | .lBrace =>
      match h : skipGroup ending token rest with
      | .failed error after => .failed error after
      | .done _ after =>
        have := skipGroup_length h
        have := (skipOne_suffix .ellipsis after).length_le
        let next := skipOne .ellipsis after
        if kindAt next = .comma then skipMemberInitializers ending next.tail else .done () next
    | .lt =>
      match h : skipAngles ending token 1 rest with
      | .done _ after =>
        have := skipAngles_length h
        skipMemberInitializers ending after
      | .failed error after => .failed error after
    | .semicolon | .rBrace =>
      .failed (unexpected ending .lParen (token :: rest)) (token :: rest)
    | _ => skipMemberInitializers ending rest
termination_by tokens => tokens.length
decreasing_by all_goals simp only [List.length_cons, List.length_tail]; omega

theorem skipMemberInitializers_suffix (ending : Token) (tokens : List Token) :
    (skipMemberInitializers ending tokens).rest <:+ tokens := by
  fun_induction skipMemberInitializers with
    grind [skipGroup_suffix, skipAngles_suffix, skipOne_suffix, Read.suffix_cons,
      Read.suffix_of_done, Read.suffix_of_failed, List.suffix_cons, List.IsSuffix.trans,
      Read.rest_done, Read.rest_failed, List.suffix_refl, List.tail_suffix]

theorem skipMemberInitializers_length {ending : Token} {tokens rest : List Token}
    (h : skipMemberInitializers ending tokens = .done () rest) :
    rest.length ≤ tokens.length := by
  have := skipMemberInitializers_suffix ending tokens
  rw [h] at this
  exact this.length_le

-- What follows the parameter list of a function, up to the end of its declaration: a `;`, or
-- a body, with member initializers before it.
def skipFunctionEnd (ending : Token) : List Token → Read Unit
  | [] => .failed (unexpected ending .semicolon []) []
  | token :: rest =>
    match token.kind with
    | .semicolon => .done () rest
    | .lBrace =>
      (skipGroup ending token rest).bind fun _ after => .done () (skipOne .semicolon after)
    | .colon =>
      match h : skipMemberInitializers ending rest with
      | .done _ after =>
        have := skipMemberInitializers_length h
        skipFunctionEnd ending after
      | .failed error after => .failed error after
    | .lParen | .lBracket | .attrOpen =>
      match h : skipGroup ending token rest with
      | .done _ after =>
        have := skipGroup_length h
        skipFunctionEnd ending after
      | .failed error after => .failed error after
    | .lt =>
      match h : skipAngles ending token 1 rest with
      | .done _ after =>
        have := skipAngles_length h
        skipFunctionEnd ending after
      | .failed error after => .failed error after
    | .rBrace => .failed (unexpected ending .semicolon (token :: rest)) (token :: rest)
    | _ => skipFunctionEnd ending rest
termination_by tokens => tokens.length
decreasing_by all_goals simp only [List.length_cons]; omega

theorem skipFunctionEnd_suffix (ending : Token) (tokens : List Token) :
    (skipFunctionEnd ending tokens).rest <:+ tokens := by
  fun_induction skipFunctionEnd with
    grind [skipGroup_suffix, skipAngles_suffix, skipOne_suffix, skipMemberInitializers_suffix,
      Read.suffix_cons, Read.suffix_of_done, Read.suffix_of_failed, List.suffix_cons,
      List.IsSuffix.trans, Read.rest_done, Read.rest_failed, List.suffix_refl, Read.suffix_bind]

-- The marks in front of the name of a function pointer, `*`, `&` and qualifiers as in `A::*`.
def pastPointerMarks : List Token → List Token
  | [] => []
  | token :: rest =>
    match token.kind with
    | .star | .amp | .colonColon => pastPointerMarks rest
    | .ident => if kindAt rest = .colonColon then pastPointerMarks rest else token :: rest
    | _ => token :: rest

-- The rest of a declarator `(*name)(parameters)` after the first parenthesis; gives the name.
def functionPointer (ending : Token) (tokens : List Token) : Read Token :=
  match pastPointerMarks tokens with
  | [] => .failed (unexpected ending .ident []) []
  | name :: rest =>
    if name.kind = .ident then
      (expect ending .rParen rest).bind fun _ after =>
        (skipParens ending after).map fun _ => name
    else .failed (unexpected ending .ident (name :: rest)) (name :: rest)

theorem pastPointerMarks_suffix (tokens : List Token) : pastPointerMarks tokens <:+ tokens := by
  fun_induction pastPointerMarks with grind [Read.suffix_cons, List.suffix_refl]

theorem functionPointer_suffix (ending : Token) (tokens : List Token) :
    (functionPointer ending tokens).rest <:+ tokens := by
  have hmarks := pastPointerMarks_suffix tokens
  unfold functionPointer
  split
  · simp
  · next name rest hname =>
    rw [hname] at hmarks
    split
    · refine Read.suffix_bind ?_ ?_
      · exact (expect_suffix ending .rParen rest).trans ((List.suffix_cons name rest).trans hmarks)
      · intro _ after
        simpa using skipParens_suffix ending after
    · simpa using hmarks

theorem functionPointer_length {ending name : Token} {tokens rest : List Token}
    (h : functionPointer ending tokens = .done name rest) : rest.length ≤ tokens.length := by
  have := functionPointer_suffix ending tokens
  rw [h] at this
  exact this.length_le

-- What all members of one declaration share.
structure MemberContext where
  start : Span
  annotations : List AnnotationBlock
  access : Access
  -- the name of the class, without its qualifiers
  className : Option String

-- What has been seen of a member declaration so far.
structure Seen where
  isStatic : Bool
  isDestructor : Bool
  -- the most recent identifier
  name : Option Token
  names : Nat
  -- attributes since the last declarator
  attributes : List AnnotationBlock

def Seen.nothing : Seen := ⟨false, false, none, 0, []⟩

-- The members that a declaration gives. Those in front of an error are kept.
structure MembersRead where
  members : List Member
  error : Option ParseError
  rest : List Token

namespace MembersRead

def failed (error : ParseError) (rest : List Token) : MembersRead := ⟨[], some error, rest⟩

def cons (member : Member) (read : MembersRead) : MembersRead :=
  { read with members := member :: read.members }

@[simp] theorem rest_failed (error : ParseError) (rest : List Token) :
    (failed error rest).rest = rest := rfl

@[simp] theorem rest_cons (member : Member) (read : MembersRead) :
    (read.cons member).rest = read.rest := rfl

end MembersRead

namespace MemberContext

def field (context : MemberContext) (seen : Seen) (name separator : Token) : Member :=
  .field ⟨name.word, seen.isStatic, context.access, context.annotations ++ seen.attributes,
    (context.start.merge name.span).merge separator.span⟩

-- The rest of a member function from its parameter list on.
def method (context : MemberContext) (ending : Token) (seen : Seen) (name : String)
    (kind : MethodKind) (tokens : List Token) : MembersRead :=
  match skipFunctionEnd ending tokens with
  | .failed error rest => .failed error rest
  | .done _ rest =>
    ⟨[.method ⟨name, kind, seen.isStatic, context.access,
      context.annotations ++ seen.attributes, spanFrom ending context.start rest⟩], none, rest⟩

-- A name that is followed by a parameter list. Only constructors and destructors have no return
-- type, so any other name that stands alone is the invocation of a macro and declares nothing.
def named (context : MemberContext) (ending : Token) (seen : Seen) (name opening : Token)
    (tokens : List Token) : MembersRead :=
  let kind :=
    if seen.isDestructor then MethodKind.destructor
    else if some name.word = context.className then .constructor
    else .regular
  if kind = .regular ∧ seen.names = 1 then
    match skipGroup ending opening tokens with
    | .failed error rest => .failed error rest
    | .done _ rest => ⟨[], none, skipOne .semicolon rest⟩
  else context.method ending seen name.word kind (opening :: tokens)

def operator (context : MemberContext) (ending : Token) (seen : Seen) (tokens : List Token) :
    MembersRead :=
  match operatorName ending tokens with
  | .failed error rest => .failed error rest
  | .done name rest => context.method ending seen name .operator rest

end MemberContext

-- The tokens are gone through from left to right, and the most recent identifier names a
-- declarator.
def memberDeclaration (context : MemberContext) (ending : Token) (seen : Seen) :
    List Token → MembersRead
  | [] => .failed (unexpected ending .semicolon []) []
  | token :: rest =>
    match token.kind with
    | .staticKw => memberDeclaration context ending { seen with isStatic := true } rest
    | .tilde => memberDeclaration context ending { seen with isDestructor := true } rest
    | .ident =>
      memberDeclaration context ending
        { seen with name := some token, names := seen.names + 1 } rest
    | .attrOpen =>
      match h : attributeBlock ending token [] rest with
      | .failed error after => .failed error after
      | .done block after =>
        have := attributeBlock_length h
        memberDeclaration context ending
          { seen with attributes := seen.attributes ++ [block] } after
    | .alignasKw =>
      match h : (skipParens ending rest).bind fun _ after => specifiers ending after with
      | .failed error after => .failed error after
      | .done _ after =>
        have : after.length ≤ rest.length :=
          (Read.suffix_of_done (Read.suffix_bind (skipParens_suffix ending rest)
            fun _ after => specifiers_suffix ending after) h).length_le
        memberDeclaration context ending seen after
    | .lt =>
      match h : skipAngles ending token 1 rest with
      | .failed error after => .failed error after
      | .done _ after =>
        have := skipAngles_length h
        memberDeclaration context ending seen after
    | .operatorKw => context.operator ending seen rest
    | .lParen =>
      if kindAt rest = .star ∨ kindAt rest = .amp then
        match h : functionPointer ending rest with
        | .failed error after => .failed error after
        | .done name after =>
          have := functionPointer_length h
          memberDeclaration context ending { seen with name := some name } after
      else
        match seen.name with
        | none => .failed (unexpected ending .ident (token :: rest)) (token :: rest)
        | some name => context.named ending seen name token rest
    | .eq | .colon =>
      match h : skipInitializer ending rest with
      | .failed error after => .failed error after
      | .done _ after =>
        have := skipInitializer_length h
        memberDeclaration context ending seen after
    | .lBrace | .lBracket =>
      match h : skipGroup ending token rest with
      | .failed error after => .failed error after
      | .done _ after =>
        have := skipGroup_length h
        memberDeclaration context ending seen after
    | .comma =>
      match seen.name with
      | none => .failed (unexpected ending .ident (token :: rest)) (token :: rest)
      | some name =>
        (memberDeclaration context ending { seen with name := none, attributes := [] } rest).cons
          (context.field seen name token)
    | .semicolon =>
      match seen.name with
      | none => .failed (unexpected ending .ident (token :: rest)) (token :: rest)
      | some name => ⟨[context.field seen name token], none, rest⟩
    | .rBrace => .failed (unexpected ending .semicolon (token :: rest)) (token :: rest)
    | _ => memberDeclaration context ending seen rest
termination_by tokens => tokens.length
decreasing_by all_goals simp only [List.length_cons]; omega

theorem method_suffix (context : MemberContext) (ending : Token) (seen : Seen) (name : String)
    (kind : MethodKind) (tokens : List Token) :
    (context.method ending seen name kind tokens).rest <:+ tokens := by
  unfold MemberContext.method
  grind [skipFunctionEnd_suffix, Read.suffix_of_done, Read.suffix_of_failed,
    MembersRead.rest_failed]

theorem named_suffix (context : MemberContext) (ending : Token) (seen : Seen)
    (name opening : Token) (tokens : List Token) :
    (context.named ending seen name opening tokens).rest <:+ opening :: tokens := by
  unfold MemberContext.named
  grind [skipGroup_suffix, skipOne_suffix, method_suffix, Read.suffix_cons, Read.suffix_of_done,
    Read.suffix_of_failed, List.IsSuffix.trans, MembersRead.rest_failed]

theorem operator_suffix (context : MemberContext) (ending : Token) (seen : Seen)
    (tokens : List Token) : (context.operator ending seen tokens).rest <:+ tokens := by
  unfold MemberContext.operator
  grind [operatorName_suffix, method_suffix, Read.suffix_of_done, Read.suffix_of_failed,
    List.IsSuffix.trans, MembersRead.rest_failed]

theorem memberDeclaration_suffix (context : MemberContext) (ending : Token) (seen : Seen)
    (tokens : List Token) : (memberDeclaration context ending seen tokens).rest <:+ tokens := by
  have halign : ∀ rest, ((skipParens ending rest).bind fun _ after => specifiers ending after).rest
      <:+ rest := fun rest => Read.suffix_bind (skipParens_suffix ending rest)
        fun _ after => specifiers_suffix ending after
  fun_induction memberDeclaration with
    grind [attributeBlock_suffix, skipAngles_suffix, skipGroup_suffix, skipInitializer_suffix,
      functionPointer_suffix, operator_suffix, named_suffix, Read.suffix_cons, Read.suffix_of_done,
      Read.suffix_of_failed, List.suffix_cons, List.IsSuffix.trans, List.suffix_refl,
      MembersRead.rest_failed, MembersRead.rest_cons]

end Reflection.Header
