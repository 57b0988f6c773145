import Reflection.Header.Members

namespace Reflection.Header

-- The names that follow the first one of a qualified name, each behind `::`.
def moreNames : List Token → List String × List Token
  | separator :: name :: rest =>
    if separator.kind = .colonColon ∧ name.kind = .ident then
      let more := moreNames rest
      (name.word :: more.1, more.2)
    else ([], separator :: name :: rest)
  | rest => ([], rest)

-- A qualified name, if one comes next, as the list of its parts.
def qualifiedName (tokens : List Token) : List String × List Token :=
  match tokens with
  | [] => ([], [])
  | name :: rest =>
    if name.kind = .ident then
      let more := moreNames rest
      (name.word :: more.1, more.2)
    else ([], tokens)

def isFinal (token : Token) : Bool := token.kind = .ident && token.text == "final".toList

-- The name of a class; `final` is none.
def className (tokens : List Token) : List String × List Token :=
  if tokens.head?.any isFinal then ([], tokens) else qualifiedName tokens

def joinName (parts : List String) : Option String :=
  if parts.isEmpty then none else some ("::".intercalate parts)

theorem moreNames_suffix (tokens : List Token) : (moreNames tokens).2 <:+ tokens := by
  fun_induction moreNames with
    grind [Read.suffix_cons, List.suffix_refl]

theorem qualifiedName_suffix (tokens : List Token) : (qualifiedName tokens).2 <:+ tokens := by
  unfold qualifiedName
  grind [moreNames_suffix, Read.suffix_cons, List.suffix_refl]

theorem className_suffix (tokens : List Token) : (className tokens).2 <:+ tokens := by
  unfold className
  grind [qualifiedName_suffix, List.suffix_refl]

-- A base clause, after its colon, up to the body of the class.
def skipBaseClause (ending : Token) : List Token → Read Unit
  | [] => .failed (unexpected ending .lBrace []) []
  | token :: rest =>
    match token.kind with
    | .lBrace => .done () (token :: rest)
    | .semicolon => .failed (unexpected ending .lBrace (token :: rest)) (token :: rest)
    | .lt =>
      match h : skipAngles ending token 1 rest with
      | .done _ after =>
        have := skipAngles_length h
        skipBaseClause ending after
      | .failed error after => .failed error after
    | .lParen | .lBracket | .attrOpen =>
      match h : skipGroup ending token rest with
      | .done _ after =>
        have := skipGroup_length h
        skipBaseClause ending after
      | .failed error after => .failed error after
    | _ => skipBaseClause ending rest
termination_by tokens => tokens.length
decreasing_by all_goals simp only [List.length_cons]; omega

theorem skipBaseClause_suffix (ending : Token) (tokens : List Token) :
    (skipBaseClause ending tokens).rest <:+ tokens := by
  fun_induction skipBaseClause with
    grind [skipGroup_suffix, skipAngles_suffix, Read.suffix_cons, Read.suffix_of_done,
      Read.suffix_of_failed, List.suffix_cons, List.IsSuffix.trans, Read.rest_done,
      Read.rest_failed, List.suffix_refl]

-- What stands between the keyword of a class and its members.
structure ClassOpening where
  attributes : List AnnotationBlock
  name : List String
  -- does a body follow, or was this a forward declaration?
  hasBody : Bool

-- Template arguments, if they come next.
def skipTemplateArguments (ending : Token) : List Token → Read Unit
  | [] => .done () []
  | token :: rest =>
    if token.kind = .lt then skipAngles ending token 1 rest else .done () (token :: rest)

def skipFinal (tokens : List Token) : List Token :=
  if tokens.head?.any isFinal then tokens.tail else tokens

-- From the base clause, if there is one, into the body.
def enterBody (ending : Token) (tokens : List Token) : Read Unit :=
  (if kindAt tokens = .colon then skipBaseClause ending tokens.tail else .done () tokens).bind
    fun _ rest => expect ending .lBrace rest

-- A class after its keyword, up to the `;` of a forward declaration or into the body.
def classOpening (ending : Token) (tokens : List Token) : Read ClassOpening :=
  (specifiers ending tokens).bind fun attributes rest =>
    let named := className rest
    (skipTemplateArguments ending named.2).bind fun _ rest =>
      let rest := skipFinal rest
      if kindAt rest = .semicolon then .done ⟨attributes, named.1, false⟩ rest.tail
      else (enterBody ending rest).map fun _ => ⟨attributes, named.1, true⟩

theorem skipTemplateArguments_suffix (ending : Token) (tokens : List Token) :
    (skipTemplateArguments ending tokens).rest <:+ tokens := by
  unfold skipTemplateArguments
  grind [skipAngles_suffix, Read.suffix_cons, Read.rest_done, List.suffix_refl]

theorem skipFinal_suffix (tokens : List Token) : skipFinal tokens <:+ tokens := by
  unfold skipFinal
  grind [List.tail_suffix, List.suffix_refl]

theorem enterBody_suffix (ending : Token) (tokens : List Token) :
    (enterBody ending tokens).rest <:+ tokens := by
  refine Read.suffix_bind ?_ fun _ rest => expect_suffix ending .lBrace rest
  split
  · exact (skipBaseClause_suffix ending _).trans (List.tail_suffix tokens)
  · exact List.suffix_refl tokens

theorem classOpening_suffix (ending : Token) (tokens : List Token) :
    (classOpening ending tokens).rest <:+ tokens := by
  refine Read.suffix_bind (specifiers_suffix ending tokens) fun attributes rest => ?_
  refine Read.suffix_bind
    ((skipTemplateArguments_suffix ending _).trans (className_suffix rest)) fun _ after => ?_
  dsimp only
  split
  · exact (List.tail_suffix _).trans (skipFinal_suffix after)
  · simpa using (enterBody_suffix ending _).trans (skipFinal_suffix after)

-- Declarators behind the body of a type, as in `} instance, *pointer;`, given by their names.
-- `name` is the most recent identifier since the last comma.
def typeDeclarators (ending : Token) (name : Option Token) : List Token → Read (List Token)
  | [] => .failed (unexpected ending .semicolon []) []
  | token :: rest =>
    match token.kind with
    | .semicolon => .done name.toList rest
    | .comma => (typeDeclarators ending none rest).map (name.toList ++ ·)
    | .rBrace => .failed (unexpected ending .semicolon (token :: rest)) (token :: rest)
    | .ident => typeDeclarators ending (some token) rest
    | .eq | .colon =>
      match h : skipInitializer ending rest with
      | .done _ after =>
        have := skipInitializer_length h
        typeDeclarators ending name after
      | .failed error after => .failed error after
    | kind =>
      if kind.isOpen then
        match h : skipGroup ending token rest with
        | .done _ after =>
          have := skipGroup_length h
          typeDeclarators ending name after
        | .failed error after => .failed error after
      else typeDeclarators ending name rest
termination_by tokens => tokens.length
decreasing_by all_goals simp only [List.length_cons]; omega

theorem typeDeclarators_suffix (ending : Token) (name : Option Token) (tokens : List Token) :
    (typeDeclarators ending name tokens).rest <:+ tokens := by
  fun_induction typeDeclarators with
    grind [skipGroup_suffix, skipInitializer_suffix, Read.suffix_cons, Read.suffix_of_done,
      Read.suffix_of_failed, List.suffix_cons, List.IsSuffix.trans, Read.rest_done,
      Read.rest_failed, Read.rest_map, List.suffix_refl]

-- The value of an enumerator, if one is given.
def skipValue (ending : Token) (tokens : List Token) : Read Unit :=
  if kindAt tokens = .eq then skipInitializer ending tokens.tail else .done () tokens

theorem skipValue_suffix (ending : Token) (tokens : List Token) :
    (skipValue ending tokens).rest <:+ tokens := by
  unfold skipValue
  split
  · exact (skipInitializer_suffix ending _).trans (List.tail_suffix tokens)
  · exact List.suffix_refl tokens

-- What follows the name of an enumerator, with the comma and the trailing comment behind it;
-- also tells whether there was a comma.
def enumeratorRest (ending : Token) (annotations : List AnnotationBlock) (name : Token)
    (tokens : List Token) : Read (EnumeratorDecl × Bool) :=
  (specifiers ending tokens).bind fun attributes rest =>
    (skipValue ending rest).bind fun _ rest =>
      let doc := trailingDoc (skipOne .comma rest)
      .done (⟨name.word, annotations ++ attributes ++ doc.1.toList,
        spanFrom ending name.span rest⟩, kindAt rest = .comma) doc.2

theorem enumeratorRest_suffix (ending : Token) (annotations : List AnnotationBlock) (name : Token)
    (tokens : List Token) :
    (enumeratorRest ending annotations name tokens).rest <:+ tokens := by
  refine Read.suffix_bind (specifiers_suffix ending tokens) fun attributes after => ?_
  refine Read.suffix_bind (skipValue_suffix ending after) fun _ after => ?_
  exact (trailingDoc_suffix _).trans (skipOne_suffix .comma after)

-- One enumerator after the annotations in front of it.
def enumerator (ending : Token) (annotations : List AnnotationBlock) :
    List Token → Read (EnumeratorDecl × Bool)
  | [] => .failed (unexpected ending .ident []) []
  | name :: rest =>
    if name.kind = .ident then enumeratorRest ending annotations name rest
    else .failed (unexpected ending .ident (name :: rest)) (name :: rest)

theorem enumerator_suffix (ending : Token) (annotations : List AnnotationBlock)
    (tokens : List Token) :
    (enumerator ending annotations tokens).rest <:+ tokens := by
  unfold enumerator
  grind [enumeratorRest_suffix, Read.suffix_cons, Read.rest_failed, List.suffix_refl]

theorem enumerator_length {ending : Token} {annotations : List AnnotationBlock}
    {tokens rest : List Token} {read : EnumeratorDecl × Bool}
    (h : enumerator ending annotations tokens = .done read rest) : rest.length < tokens.length := by
  unfold enumerator at h
  split at h
  · cases h
  · next name after =>
    split at h
    · have hsuffix := enumeratorRest_suffix ending annotations name after
      have := (Read.suffix_of_done hsuffix h).length_le
      simp only [List.length_cons]
      omega
    · cases h

-- The enumerators of an enum up to the brace that closes it.
def enumerators (ending : Token) (tokens : List Token) : Read (List EnumeratorDecl) :=
  match hlead : leadingAnnotations ending tokens with
  | .failed error rest => .failed error rest
  | .done annotations rest =>
    if kindAt rest = .rBrace then .done [] rest
    else
      match hread : enumerator ending annotations rest with
      | .failed error after => .failed error after
      | .done (decl, true) after =>
        have : rest.length ≤ tokens.length :=
          (Read.suffix_of_done (leadingAnnotations_suffix ending tokens) hlead).length_le
        have := enumerator_length hread
        (enumerators ending after).map (decl :: ·)
      | .done (decl, false) after => .done [decl] after
termination_by tokens.length
decreasing_by omega

theorem enumerators_suffix (ending : Token) (tokens : List Token) :
    (enumerators ending tokens).rest <:+ tokens := by
  fun_induction enumerators with
    grind [leadingAnnotations_suffix, enumerator_suffix, Read.suffix_of_done,
      Read.suffix_of_failed, List.IsSuffix.trans, Read.rest_done, Read.rest_failed, Read.rest_map]

-- The underlying type of an enum, after its colon.
def skipUnderlyingType (ending : Token) : List Token → Read Unit
  | [] => .failed (.unexpectedEnd ending.span) []
  | token :: rest =>
    match token.kind with
    | .lBrace | .semicolon => .done () (token :: rest)
    | _ => skipUnderlyingType ending rest

theorem skipUnderlyingType_suffix (ending : Token) (tokens : List Token) :
    (skipUnderlyingType ending tokens).rest <:+ tokens := by
  fun_induction skipUnderlyingType with
    grind [Read.suffix_cons, Read.rest_done, Read.rest_failed, List.suffix_refl]

-- The body of an enum and what follows it, after its opening brace.
def enumBody (ending : Token) (describe : Bool → List EnumeratorDecl → List Token → EnumDecl)
    (tokens : List Token) : Read (EnumDecl × List Token) :=
  (enumerators ending tokens).bind fun decls rest =>
    (expect ending .rBrace rest).bind fun _ rest =>
      (typeDeclarators ending none rest).map fun names => (describe true decls rest, names)

-- An enum after its keyword, with the names of the declarators behind its body.
def enumDeclaration (ending : Token) (annotations : List AnnotationBlock) (keyword : Token)
    (tokens : List Token) : Read (EnumDecl × List Token) :=
  let isScoped := kindAt tokens = .classKw ∨ kindAt tokens = .structKw
  (specifiers ending (if isScoped then tokens.tail else tokens)).bind fun attributes rest =>
    let named := qualifiedName rest
    let describe := fun isDefinition decls rest => EnumDecl.mk (joinName named.1) isScoped
      isDefinition (annotations ++ attributes) decls (spanFrom ending keyword.span rest)
    (if kindAt named.2 = .colon then skipUnderlyingType ending named.2.tail
      else .done () named.2).bind fun _ rest =>
        if kindAt rest = .semicolon then .done (describe false [] rest.tail, []) rest.tail
        else (expect ending .lBrace rest).bind fun _ rest => enumBody ending describe rest

theorem enumBody_suffix (ending : Token)
    (describe : Bool → List EnumeratorDecl → List Token → EnumDecl) (tokens : List Token) :
    (enumBody ending describe tokens).rest <:+ tokens := by
  refine Read.suffix_bind (enumerators_suffix ending tokens) fun decls rest => ?_
  refine Read.suffix_bind (expect_suffix ending .rBrace rest) fun _ after => ?_
  simpa using typeDeclarators_suffix ending none after

theorem enumDeclaration_suffix (ending : Token) (annotations : List AnnotationBlock)
    (keyword : Token)
    (tokens : List Token) :
    (enumDeclaration ending annotations keyword tokens).rest <:+ tokens := by
  refine Read.suffix_bind ?_ fun attributes rest => Read.suffix_bind ?_ fun _ after => ?_
  · refine (specifiers_suffix ending _).trans ?_
    split
    · exact List.tail_suffix tokens
    · exact List.suffix_refl tokens
  · split
    · exact ((skipUnderlyingType_suffix ending _).trans (List.tail_suffix _)).trans
        (qualifiedName_suffix rest)
    · exact qualifiedName_suffix rest
  · split
    · exact List.tail_suffix after
    · exact Read.suffix_bind (expect_suffix ending .lBrace after)
        fun _ inner => enumBody_suffix ending _ inner

end Reflection.Header
