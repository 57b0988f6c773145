import Reflection.Header.Scopes

namespace Reflection.Header

variable (ending : Token) (token : Token) (rest : List Token)

namespace Read

@[simp] theorem bind_done {α β : Type} (value : α) (rest : List Token)
    (next : α → List Token → Read β) : (Read.done value rest).bind next = next value rest := rfl

@[simp] theorem bind_failed {α β : Type} (error : ParseError) (rest : List Token)
    (next : α → List Token → Read β) :
    (Read.failed error rest).bind next = .failed error rest := rfl

theorem bind_eq_done {α β : Type} {read : Read α} {next : α → List Token → Read β} {value : β}
    {rest : List Token} (h : read.bind next = .done value rest) :
    ∃ first after, read = .done first after ∧ next first after = .done value rest := by
  cases read with
  | done first after => exact ⟨first, after, rfl, h⟩
  | failed error after => cases h

theorem map_eq_done {α β : Type} {read : Read α} {f : α → β} {value : β} {rest : List Token}
    (h : read.map f = .done value rest) : ∃ first, read = .done first rest ∧ f first = value := by
  cases read with
  | done first after =>
      cases h
      exact ⟨first, rfl, rfl⟩
  | failed error after => cases h

end Read

theorem nestedGroup_cons (opening : Token) (depth : Nat) :
    nestedGroup ending opening depth (token :: rest) =
      if token.kind = .attrOpen then
        (attributeBlock ending token [] rest).bind fun _ after =>
          nestedGroup ending opening depth after
      else if token.kind.isOpen then nestedGroup ending opening (depth + 1) rest
      else if token.kind.isClose then
        if depth ≤ 1 then .done () rest else nestedGroup ending opening (depth - 1) rest
      else nestedGroup ending opening depth rest := by
  rw [nestedGroup]
  split
  · split <;> next h => simp only [h, Read.bind_done, Read.bind_failed]
  · rfl

theorem skipAngles_cons (opening : Token) (depth : Nat) :
    skipAngles ending opening depth (token :: rest) =
      match token.kind with
      | .lt => skipAngles ending opening (depth + 1) rest
      | .gt => if depth ≤ 1 then .done () rest else skipAngles ending opening (depth - 1) rest
      | .semicolon | .rBrace =>
        .failed (.unterminated .templateArguments opening.span) (token :: rest)
      | kind =>
        if kind.isOpen then
          (skipGroup ending token rest).bind fun _ after => skipAngles ending opening depth after
        else skipAngles ending opening depth rest := by
  rw [skipAngles]
  cases token.kind <;> dsimp only
  all_goals split
  all_goals try rfl
  all_goals split <;> next h => simp only [h, Read.bind_done, Read.bind_failed]

theorem skipInitializer_cons :
    skipInitializer ending (token :: rest) =
      match token.kind with
      | .comma | .semicolon | .rBrace => .done () (token :: rest)
      | kind =>
        if kind.isOpen then
          (skipGroup ending token rest).bind fun _ after => skipInitializer ending after
        else skipInitializer ending rest := by
  rw [skipInitializer]
  cases token.kind <;> dsimp only
  all_goals split
  all_goals try rfl
  all_goals split <;> next h => simp only [h, Read.bind_done, Read.bind_failed]

theorem skipDeclaration_cons (passed : Passed) :
    skipDeclaration ending passed (token :: rest) =
      match token.kind with
      | .semicolon => .done () rest
      | .rBrace => .failed (unexpected ending .semicolon (token :: rest)) (token :: rest)
      | .eq => skipDeclaration ending { passed with equals := true } rest
      | .lParen =>
        (skipGroup ending token rest).bind fun _ after =>
          skipDeclaration ending
            { passed with parameters := passed.parameters || !passed.equals } after
      | .lBrace =>
        (skipGroup ending token rest).bind fun _ after =>
          if passed.parameters && !passed.equals then .done () (skipOne .semicolon after)
          else skipDeclaration ending passed after
      | kind =>
        if kind.isOpen then
          (skipGroup ending token rest).bind fun _ after => skipDeclaration ending passed after
        else skipDeclaration ending passed rest := by
  rw [skipDeclaration]
  cases token.kind <;> dsimp only
  all_goals try rfl
  all_goals split
  all_goals try rfl
  all_goals first
    | next h => simp only [h, Read.bind_done, Read.bind_failed]
    | split <;> next h => simp only [h, Read.bind_done, Read.bind_failed]

theorem leadingAnnotations_cons :
    leadingAnnotations ending (token :: rest) =
      if isTrailingDoc token then leadingAnnotations ending rest
      else if isLeadingDoc token then
        (leadingAnnotations ending (rest.dropWhile isLeadingDoc)).map
          (docBlock token (rest.takeWhile isLeadingDoc) :: ·)
      else if token.kind = .attrOpen then
        (attributeBlock ending token [] rest).bind fun block after =>
          (leadingAnnotations ending after).map (block :: ·)
      else .done [] (token :: rest) := by
  rw [leadingAnnotations]
  split
  · rfl
  · split
    · rfl
    · split
      · split <;> next h => simp only [h, Read.bind_done, Read.bind_failed]
      · rfl

-- In front of anything else, there is no annotation.
theorem leadingAnnotations_plain {ending token : Token}
    (h : token.kind ∉ [.docComment, .attrOpen]) (rest : List Token) :
    leadingAnnotations ending (token :: rest) = .done [] (token :: rest) := by
  simp only [List.mem_cons, List.not_mem_nil, or_false, not_or] at h
  rw [leadingAnnotations_cons]
  simp [isTrailingDoc, isLeadingDoc, h.1, h.2]

theorem specifiers_cons :
    specifiers ending (token :: rest) =
      match token.kind with
      | .attrOpen =>
        (attributeBlock ending token [] rest).bind fun block after =>
          (specifiers ending after).map (block :: ·)
      | .alignasKw => (skipParens ending rest).bind fun _ after => specifiers ending after
      | _ => .done [] (token :: rest) := by
  rw [specifiers]
  cases token.kind <;> dsimp only
  all_goals split <;> next h => simp only [h, Read.bind_done, Read.bind_failed]

theorem skipMemberInitializers_cons :
    skipMemberInitializers ending (token :: rest) =
      match token.kind with
      | .lParen | .lBrace =>
        (skipGroup ending token rest).bind fun _ after =>
          if kindAt (skipOne .ellipsis after) = .comma then
            skipMemberInitializers ending (skipOne .ellipsis after).tail
          else .done () (skipOne .ellipsis after)
      | .lt =>
        (skipAngles ending token 1 rest).bind fun _ after => skipMemberInitializers ending after
      | .semicolon | .rBrace =>
        .failed (unexpected ending .lParen (token :: rest)) (token :: rest)
      | _ => skipMemberInitializers ending rest := by
  rw [skipMemberInitializers]
  cases token.kind <;> dsimp only
  all_goals split <;> next h => simp only [h, Read.bind_done, Read.bind_failed]

theorem skipFunctionEnd_cons :
    skipFunctionEnd ending (token :: rest) =
      match token.kind with
      | .semicolon => .done () rest
      | .lBrace =>
        (skipGroup ending token rest).bind fun _ after => .done () (skipOne .semicolon after)
      | .colon =>
        (skipMemberInitializers ending rest).bind fun _ after => skipFunctionEnd ending after
      | .lParen | .lBracket | .attrOpen =>
        (skipGroup ending token rest).bind fun _ after => skipFunctionEnd ending after
      | .lt => (skipAngles ending token 1 rest).bind fun _ after => skipFunctionEnd ending after
      | .rBrace => .failed (unexpected ending .semicolon (token :: rest)) (token :: rest)
      | _ => skipFunctionEnd ending rest := by
  rw [skipFunctionEnd]
  cases token.kind <;> dsimp only
  all_goals split <;> next h => simp only [h, Read.bind_done, Read.bind_failed]

theorem skipBaseClause_cons :
    skipBaseClause ending (token :: rest) =
      match token.kind with
      | .lBrace => .done () (token :: rest)
      | .semicolon => .failed (unexpected ending .lBrace (token :: rest)) (token :: rest)
      | .lt => (skipAngles ending token 1 rest).bind fun _ after => skipBaseClause ending after
      | .lParen | .lBracket | .attrOpen =>
        (skipGroup ending token rest).bind fun _ after => skipBaseClause ending after
      | _ => skipBaseClause ending rest := by
  rw [skipBaseClause]
  cases token.kind <;> dsimp only
  all_goals split <;> next h => simp only [h, Read.bind_done, Read.bind_failed]

theorem typeDeclarators_cons (name : Option Token) :
    typeDeclarators ending name (token :: rest) =
      match token.kind with
      | .semicolon => .done name.toList rest
      | .comma => (typeDeclarators ending none rest).map (name.toList ++ ·)
      | .rBrace => .failed (unexpected ending .semicolon (token :: rest)) (token :: rest)
      | .ident => typeDeclarators ending (some token) rest
      | .eq | .colon =>
        (skipInitializer ending rest).bind fun _ after => typeDeclarators ending name after
      | kind =>
        if kind.isOpen then
          (skipGroup ending token rest).bind fun _ after => typeDeclarators ending name after
        else typeDeclarators ending name rest := by
  rw [typeDeclarators]
  cases token.kind <;> dsimp only
  all_goals try rfl
  all_goals split
  all_goals try rfl
  all_goals first
    | next h => simp only [h, Read.bind_done, Read.bind_failed]
    | split <;> next h => simp only [h, Read.bind_done, Read.bind_failed]

theorem enumerators_eq (tokens : List Token) :
    enumerators ending tokens =
      (leadingAnnotations ending tokens).bind fun annotations rest =>
        if kindAt rest = .rBrace then .done [] rest
        else (enumerator ending annotations rest).bind fun read after =>
          if read.2 then (enumerators ending after).map (read.1 :: ·)
          else .done [read.1] after := by
  rw [enumerators]
  split
  · next h => simp only [h, Read.bind_failed]
  · next h =>
    simp only [h, Read.bind_done]
    split
    · rfl
    · split <;> next h => simp [h]

namespace MembersRead

-- Members behind another reading.
def after {α : Type} (read : Read α) (next : α → List Token → MembersRead) : MembersRead :=
  match read with
  | .done value rest => next value rest
  | .failed error rest => .failed error rest

@[simp] theorem after_done {α : Type} (value : α) (rest : List Token)
    (next : α → List Token → MembersRead) : after (.done value rest) next = next value rest := rfl

@[simp] theorem after_failed {α : Type} (error : ParseError) (rest : List Token)
    (next : α → List Token → MembersRead) :
    after (.failed error rest) next = .failed error rest := rfl

end MembersRead

theorem memberDeclaration_cons (context : MemberContext) (seen : Seen) :
    memberDeclaration context ending seen (token :: rest) =
      match token.kind with
      | .staticKw => memberDeclaration context ending { seen with isStatic := true } rest
      | .tilde => memberDeclaration context ending { seen with isDestructor := true } rest
      | .ident =>
        memberDeclaration context ending
          { seen with name := some token, names := seen.names + 1 } rest
      | .attrOpen =>
        .after (attributeBlock ending token [] rest) fun block after =>
          memberDeclaration context ending
            { seen with attributes := seen.attributes ++ [block] } after
      | .alignasKw =>
        .after ((skipParens ending rest).bind fun _ after => specifiers ending after)
          fun _ after => memberDeclaration context ending seen after
      | .lt =>
        .after (skipAngles ending token 1 rest) fun _ after =>
          memberDeclaration context ending seen after
      | .operatorKw => context.operator ending seen rest
      | .lParen =>
        if kindAt rest = .star ∨ kindAt rest = .amp then
          .after (functionPointer ending rest) fun name after =>
            memberDeclaration context ending { seen with name := some name } after
        else
          match seen.name with
          | none => .failed (unexpected ending .ident (token :: rest)) (token :: rest)
          | some name => context.named ending seen name token rest
      | .eq | .colon =>
        .after (skipInitializer ending rest) fun _ after =>
          memberDeclaration context ending seen after
      | .lBrace | .lBracket =>
        .after (skipGroup ending token rest) fun _ after =>
          memberDeclaration context ending seen after
      | .comma =>
        match seen.name with
        | none => .failed (unexpected ending .ident (token :: rest)) (token :: rest)
        | some name =>
          (memberDeclaration context ending { seen with name := none, attributes := [] } rest).cons
            (context.field seen name token)
      | .semicolon =>
        match seen.name with
        | none => .failed (unexpected ending .ident (token :: rest)) (token :: rest)
        | some name => ⟨[context.field seen name token], none, rest⟩
      | .rBrace => .failed (unexpected ending .semicolon (token :: rest)) (token :: rest)
      | _ => memberDeclaration context ending seen rest := by
  rw [memberDeclaration]
  cases token.kind <;> dsimp only
  all_goals split
  all_goals try rfl
  all_goals first
    | next h => simp only [h, MembersRead.after_done, MembersRead.after_failed]
    | split <;> next h => simp only [h, MembersRead.after_done, MembersRead.after_failed]

section Reports

variable {α β : Type} {bound : Nat} {tokens : List Token}

-- A reading with reports behind one without.
def Recorded.after (read : Read α) (h : read.rest.length ≤ bound)
    (next : α → (tokens : List Token) → Recorded β tokens.length) : Recorded β bound :=
  match read, h with
  | .failed error rest, h => ⟨.error error, [], rest, h⟩
  | .done value rest, h => (next value rest).within h

def MemberStep.after (read : Read α) (access : Access) (h : read.rest.length ≤ bound)
    (next : α → (tokens : List Token) → MemberStep tokens.length) : MemberStep bound :=
  match read, h with
  | .failed error rest, h => .failed access error rest h
  | .done value rest, h => (next value rest).within h

theorem Recorded.after_failed {read : Read α} {error : ParseError} {rest : List Token}
    (hread : read = .failed error rest) (h : read.rest.length ≤ bound)
    (next : α → (tokens : List Token) → Recorded β tokens.length) :
    Recorded.after read h next = ⟨.error error, [], rest, by rwa [hread] at h⟩ := by
  subst hread
  rfl

theorem Recorded.after_done {read : Read α} {value : α} {rest : List Token}
    (hread : read = .done value rest) (h : read.rest.length ≤ bound)
    (next : α → (tokens : List Token) → Recorded β tokens.length) :
    Recorded.after read h next = (next value rest).within (by rwa [hread] at h) := by
  subst hread
  rfl

theorem MemberStep.after_failed {read : Read α} {error : ParseError} {rest : List Token}
    (hread : read = .failed error rest) (access : Access) (h : read.rest.length ≤ bound)
    (next : α → (tokens : List Token) → MemberStep tokens.length) :
    MemberStep.after read access h next = .failed access error rest (by rwa [hread] at h) := by
  subst hread
  rfl

theorem MemberStep.after_done {read : Read α} {value : α} {rest : List Token}
    (hread : read = .done value rest) (access : Access) (h : read.rest.length ≤ bound)
    (next : α → (tokens : List Token) → MemberStep tokens.length) :
    MemberStep.after read access h next = (next value rest).within (by rwa [hread] at h) := by
  subst hread
  rfl

theorem Recorded.ofRead_done {read : Read α} {value : α} {rest : List Token}
    (hread : read = .done value rest) (h : read.rest.length ≤ bound) :
    Recorded.ofRead read h = ⟨.ok value, [], rest, by rwa [hread] at h⟩ := by
  subst hread
  rfl

theorem Recorded.andThen_ok {read : Recorded α bound} {value : α} (h : read.outcome = .ok value)
    (next : α → List Token → Read β)
    (hnext : ∀ value tokens, (next value tokens).rest.length ≤ tokens.length) :
    read.andThen next hnext =
      (ofRead (next value read.rest) (Nat.le_trans (hnext value read.rest) read.rest_le)).behind
        read.recovered := by
  unfold andThen
  rw [h]

theorem Recorded.andThen_done {read : Recorded α bound} {value : α} {last : β}
    {rest : List Token} {next : α → List Token → Read β} (hread : read.outcome = .ok value)
    (hnext : next value read.rest = .done last rest)
    (h : ∀ value tokens, (next value tokens).rest.length ≤ tokens.length) :
    (read.andThen next h).outcome = .ok last ∧
      (read.andThen next h).recovered = read.recovered ∧ (read.andThen next h).rest = rest := by
  rw [andThen_ok hread, ofRead_done hnext]
  exact ⟨rfl, List.append_nil _, rfl⟩

theorem MemberStep.rest_ofRecorded (access : Access) (read : Recorded (List Member) bound) :
    (ofRecorded access read).rest = read.rest := by
  unfold ofRecorded
  split <;> rfl

-- The bounds of the readings below.
theorem length_le_self (tokens : List Token) : tokens.length ≤ tokens.length := Nat.le_refl _

theorem nil_length_le : ([] : List Token).length ≤ ([] : List Token).length := Nat.le_refl _

theorem length_le_cons (token : Token) (rest : List Token) :
    rest.length ≤ (token :: rest).length := Nat.le_succ _

theorem skipDeclaration_length (ending token : Token) (rest : List Token) :
    (skipDeclaration ending .nothing (token :: rest)).rest.length ≤ (token :: rest).length :=
  (skipDeclaration_suffix ending .nothing (token :: rest)).length_le

-- What a class is, apart from its members, if its declaration ends in front of these tokens.
def ClassOpening.head (opening : ClassOpening) (ending : Token)
    (annotations : List AnnotationBlock) (isTemplate : Bool) (keyword : Token)
    (isDefinition : Bool) (rest : List Token) : ClassHead :=
  ⟨joinName opening.name, classKey keyword, isDefinition, isTemplate,
    annotations ++ opening.attributes, spanFrom ending keyword.span rest⟩

-- The end of a class whose members have been read.
def ClassOpening.finish (opening : ClassOpening) (ending : Token)
    (annotations : List AnnotationBlock) (isTemplate : Bool) (keyword : Token)
    (members : List Member) : List Token → Read (Entity × List Token) :=
  classEnd ending fun rest =>
    .classDecl (opening.head ending annotations isTemplate keyword true rest) members

theorem ClassOpening.finish_length (opening : ClassOpening) (ending : Token)
    (annotations : List AnnotationBlock) (isTemplate : Bool) (keyword : Token)
    (members : List Member) (tokens : List Token) :
    (opening.finish ending annotations isTemplate keyword members tokens).rest.length ≤
      tokens.length := classEnd_length ending _ tokens

-- A class behind its head.
def classFrom (mode : ErrorMode) (ending : Token) (annotations : List AnnotationBlock)
    (isTemplate : Bool) (keyword : Token) (opening : ClassOpening) (tokens : List Token) :
    Recorded (Entity × List Token) tokens.length :=
  if opening.hasBody then
    (classBody mode ending opening.name.getLast? (classKey keyword).defaultAccess tokens).andThen
      (opening.finish ending annotations isTemplate keyword)
      (opening.finish_length ending annotations isTemplate keyword)
  else
    ⟨.ok (.classDecl (opening.head ending annotations isTemplate keyword false tokens) [], []), [],
      tokens, length_le_self tokens⟩

-- A template behind its arguments.
def templateFrom (mode : ErrorMode) (ending : Token) (annotations : List AnnotationBlock) :
    (tokens : List Token) → Recorded (Option Entity) tokens.length
  | [] => ⟨.error (unexpected ending .semicolon []), [], [], nil_length_le⟩
  | keyword :: rest =>
    if isClassKey keyword.kind && startsTypeDeclaration (keyword :: rest) then
      ((classDeclaration mode ending annotations true keyword rest).map
        fun read => some read.1).within (length_le_cons keyword rest)
    else
      (Recorded.ofRead (skipDeclaration ending .nothing (keyword :: rest))
        (skipDeclaration_length ending keyword rest)).map fun _ => none

-- A namespace behind its opening.
def namespaceFrom (mode : ErrorMode) (ending : Token) (isInline : Bool) (keyword : Token)
    (opening : NamespaceOpening) (tokens : List Token) : Recorded (List Entity) tokens.length :=
  if opening.hasBody then
    (scope mode ending true tokens).close ending fun entities rest =>
      [.namespaceDecl ⟨joinName opening.name, isInline, spanFrom ending keyword.span rest⟩ entities]
  else ⟨.ok [], [], tokens, length_le_self tokens⟩

theorem classDeclaration_eq_after (mode : ErrorMode) (annotations : List AnnotationBlock)
    (isTemplate : Bool) (keyword : Token) :
    classDeclaration mode ending annotations isTemplate keyword tokens =
      .after (classOpening ending tokens) (classOpening_suffix ending tokens).length_le
        (classFrom mode ending annotations isTemplate keyword) := by
  rw [classDeclaration]
  split
  · next h => rw [Recorded.after_failed h]
  · next h =>
    rw [Recorded.after_done h]
    simp only [classFrom]
    split <;> rfl

theorem templateDeclaration_eq_after (mode : ErrorMode) (annotations : List AnnotationBlock) :
    templateDeclaration mode ending annotations tokens =
      .after (skipTemplateArguments ending tokens)
        (skipTemplateArguments_suffix ending tokens).length_le
        fun _ => templateFrom mode ending annotations := by
  rw [templateDeclaration]
  split
  · next h => rw [Recorded.after_failed h]
  · next h =>
    rw [Recorded.after_done h]
    rfl
  · next h =>
    rw [Recorded.after_done h]
    rfl

theorem memberStep_eq_after (mode : ErrorMode) (name : Option String) (access : Access) :
    memberStep mode ending name access tokens =
      .after (leadingAnnotations ending tokens) access
        (leadingAnnotations_suffix ending tokens).length_le
        (member mode ending name access) := by
  rw [memberStep]
  split
  · next h => rw [MemberStep.after_failed h]
  · next h => rw [MemberStep.after_done h]

theorem namespaceDeclaration_eq_after (mode : ErrorMode) (isInline : Bool) (keyword : Token) :
    namespaceDeclaration mode ending isInline keyword tokens =
      .after (namespaceOpening ending tokens) (namespaceOpening_suffix ending tokens).length_le
        (namespaceFrom mode ending isInline keyword) := by
  rw [namespaceDeclaration]
  split
  · next h => rw [Recorded.after_failed h]
  · next h =>
    rw [Recorded.after_done h]
    simp only [namespaceFrom]
    split <;> rfl

theorem scopeItem_eq_after (mode : ErrorMode) :
    scopeItem mode ending tokens =
      .after (leadingAnnotations ending tokens) (leadingAnnotations_suffix ending tokens).length_le
        (scopeDeclaration mode ending) := by
  rw [scopeItem]
  split
  · next h => rw [Recorded.after_failed h]
  · next h => rw [Recorded.after_done h]

end Reports

end Reflection.Header
