import Reflection.Proofs.Header.ErrorModes
import Reflection.Proofs.Header.Members.Labels

namespace Reflection.Header

section Forms

-- One or more declarators.
structure DeclaratorList where
  first : Declarator
  more : List (Token × Declarator)
  comma_kinds : ∀ entry ∈ more, entry.1.kind = .comma

-- What stands behind the body of a type: declarators, if there are any, and a semicolon.
structure TypeEnd where
  list : Option DeclaratorList
  semicolon : Token
  semicolon_kind : semicolon.kind = .semicolon

def DeclaratorList.tokens (list : DeclaratorList) : List Token :=
  list.first.tokens ++ list.more.flatMap commaTokens

def DeclaratorList.names (list : DeclaratorList) : List Token :=
  (list.first :: list.more.map Prod.snd).map Declarator.name

namespace TypeEnd

variable (typeEnd : TypeEnd)

def tokens : List Token :=
  typeEnd.list.toList.flatMap DeclaratorList.tokens ++ [typeEnd.semicolon]

def names : List Token := typeEnd.list.toList.flatMap DeclaratorList.names

end TypeEnd

end Forms

variable {mode : ErrorMode} {ending : Token} {className : Option String} {access : Access}
  {annotations : List AnnotationBlock} {tokens rest : List Token}

section Reading

variable {name : Option Token}

theorem typeDeclarators_mark {token : Token} (h : token.kind ∈ [.star, .amp]) :
    typeDeclarators ending name (token :: rest) = typeDeclarators ending name rest := by
  rw [typeDeclarators_cons]
  generalize token.kind = kind at h
  fin_cases h <;> rfl

theorem typeDeclarators_group {kind : TokenKind} {group : List Token} (h : WholeGroup kind group) :
    typeDeclarators ending name (group ++ rest) = typeDeclarators ending name rest := by
  obtain ⟨opening, inner, htokens, hkind, hopen, hskip⟩ := @WholeGroup.skip ending _ _ h rest
  rw [htokens, typeDeclarators_cons, hkind, hskip]
  cases kind <;> first
    | rfl
    | cases hopen

theorem typeDeclarators_marks {marks : List Token} (h : ∀ mark ∈ marks, mark.kind ∈ [.star, .amp]) :
    typeDeclarators ending name (marks ++ rest) = typeDeclarators ending name rest := by
  induction marks with
  | nil => rfl
  | cons mark marks ih =>
      rw [List.cons_append, typeDeclarators_mark (h mark List.mem_cons_self)]
      exact ih fun other hmem => h other (List.mem_cons_of_mem mark hmem)

theorem typeDeclarators_suffixes (suffixes : List Suffix) :
    typeDeclarators ending name (suffixes.flatMap Suffix.tokens ++ rest) =
      typeDeclarators ending name rest := by
  induction suffixes with
  | nil => rfl
  | cons suffix suffixes ih =>
      rw [List.flatMap_cons, List.append_assoc, ← ih]
      cases suffix with
      | attributed attributes =>
          obtain ⟨tokens, htokens, hblock⟩ := @attributes.attributeBlock_tokens ending
            (suffixes.flatMap Suffix.tokens ++ rest)
          rw [Suffix.tokens, htokens, typeDeclarators_cons, attributes.opening_kind, skipGroup,
            if_pos attributes.opening_kind, hblock]
          rfl
      | bound group hgroup => exact typeDeclarators_group hgroup

theorem typeDeclarators_initial (initial : Initial) (hrest : kindAt rest ∈ [.comma, .semicolon]) :
    typeDeclarators ending name (initial.tokens ++ rest) = typeDeclarators ending name rest := by
  cases initial with
  | absent => rfl
  | marked mark value hmark hvalue =>
      rw [Initial.tokens, List.cons_append, typeDeclarators_cons]
      generalize mark.kind = kind at hmark
      fin_cases hmark <;> (dsimp only; rw [skipInitializer_value hvalue hrest, Read.bind_done])
  | braced group hgroup => exact typeDeclarators_group hgroup

-- Behind a declarator, its name is the most recent one.
theorem typeDeclarators_declarator (declarator : Declarator)
    (hrest : kindAt rest ∈ [.comma, .semicolon]) :
    typeDeclarators ending name (declarator.tokens ++ rest) =
      typeDeclarators ending (some declarator.name) rest := by
  rw [Declarator.tokens, List.append_assoc, typeDeclarators_marks declarator.mark_kinds,
    List.cons_append, typeDeclarators_cons, declarator.name_kind]
  dsimp only
  rw [List.append_assoc, typeDeclarators_suffixes, typeDeclarators_initial _ hrest]

theorem typeDeclarators_list (first : Declarator) {more : List (Token × Declarator)}
    {semicolon : Token} (hcommas : ∀ entry ∈ more, entry.1.kind = .comma)
    (hsemicolon : semicolon.kind = .semicolon) :
    typeDeclarators ending name (first.tokens ++ (more.flatMap commaTokens ++ semicolon :: rest)) =
      .done ((first :: more.map Prod.snd).map Declarator.name) rest := by
  induction more generalizing first name with
  | nil =>
      rw [List.flatMap_nil, List.nil_append, typeDeclarators_declarator first (by simp [hsemicolon]),
        typeDeclarators_cons, hsemicolon]
      rfl
  | cons entry more ih =>
      have hcomma := hcommas entry List.mem_cons_self
      have hread := @ih none entry.2 fun other hmem => hcommas other (List.mem_cons_of_mem entry hmem)
      rw [List.flatMap_cons, List.append_assoc, commaTokens, List.cons_append,
        typeDeclarators_declarator first (by simp [hcomma]), typeDeclarators_cons, hcomma]
      dsimp only
      rw [hread]
      rfl

-- The names of declarators, and where they end.
theorem typeDeclarators_end (typeEnd : TypeEnd) (rest : List Token) :
    typeDeclarators ending none (typeEnd.tokens ++ rest) = .done typeEnd.names rest := by
  unfold TypeEnd.tokens TypeEnd.names
  cases typeEnd.list with
  | none =>
      rw [Option.toList_none, List.flatMap_nil, List.nil_append, List.singleton_append,
        typeDeclarators_cons, typeEnd.semicolon_kind]
      rfl
  | some list =>
      have hread := @typeDeclarators_list ending rest none list.first _ _ list.comma_kinds
        typeEnd.semicolon_kind
      rw [Option.toList_some, List.flatMap_singleton, List.flatMap_singleton,
        DeclaratorList.tokens, List.append_assoc, List.append_assoc, List.singleton_append]
      exact hread

end Reading

section Types

def Entity.isDefinition : Entity → Bool
  | .namespaceDecl _ _ => false
  | .classDecl head _ => head.isDefinition
  | .enumDecl decl => decl.isDefinition

-- `entity` is the type whose definition begins with `keyword` and ends with the brace in front of
-- `after`.
structure DefinedUpTo (ending keyword : Token) (tokens after : List Token) (entity : Entity) :
    Prop where
  isDefinition : Entity.isDefinition entity = true
  closed : ∃ closing, closing.kind = .rBrace ∧ closing :: after <:+ tokens
  span : entity.span = spanFrom ending keyword.span after

-- What is read as the declaration of a type, and the names of the declarators behind it: those that
-- stand between the brace that closes the type and `rest`.
inductive TypeRead (ending keyword : Token) (tokens : List Token) (entity : Entity)
    (names rest : List Token) : Prop where
  | declared (hdeclared : Entity.isDefinition entity = false) (hnames : names = [])
  | defined (after : List Token) (hdefined : DefinedUpTo ending keyword tokens after entity)
      (hread : typeDeclarators ending none after = .done names rest)
      (hnames : ∀ (typeEnd : TypeEnd) (more : List Token), after = typeEnd.tokens ++ more →
        names = typeEnd.names ∧ rest = more)

theorem TypeRead.of_read {keyword : Token} {after names : List Token} {entity : Entity}
    (hdefined : DefinedUpTo ending keyword tokens after entity)
    (hread : typeDeclarators ending none after = .done names rest) :
    TypeRead ending keyword tokens entity names rest := by
  refine .defined after hdefined hread fun typeEnd more hafter => ?_
  rw [hafter, typeDeclarators_end] at hread
  cases hread
  exact ⟨rfl, rfl⟩

theorem expect_gives {kind : TokenKind} :
    (expect ending kind tokens).Gives fun _ rest =>
      kind = .eof ∨ ∃ token, token.kind = kind ∧ tokens = token :: rest := by
  unfold expect
  split
  · next hkind =>
    cases tokens with
    | nil => exact .inl hkind.symm
    | cons token rest => exact .inr ⟨token, hkind, rfl⟩
  · trivial

-- A class body ends with the brace that closes it.
theorem classBody_closed :
    (classBody mode ending className access tokens).Gives fun _ rest =>
      ∃ closing, closing.kind = .rBrace ∧ closing :: rest <:+ tokens := by
  intro members h
  fun_induction bodyPasses mode ending className access tokens generalizing members
  case case1 =>
    rw [classBody] at h
    cases h
  case case2 access token rest hbrace =>
    rw [classBody_rBrace mode ending className access hbrace]
    exact ⟨token, hbrace, List.suffix_refl _⟩
  case case3 access token rest hbrace step ih =>
    have hextends := classBody_extends className access hbrace (classBody_goes_on hbrace h)
    rw [hextends.outcome] at h
    obtain ⟨others, hothers, rfl⟩ := outcome_map_ok h
    obtain ⟨closing, hclosing, hsuffix⟩ := ih others hothers
    have hnext : step.next <:+ token :: rest := step.next_suffix.trans memberStep_rest_suffix
    rw [hextends.rest]
    exact ⟨closing, hclosing, hsuffix.trans ((resume_suffix hnext).trans hnext)⟩

theorem classDeclaration_typeRead (isTemplate : Bool) (keyword : Token) :
    (classDeclaration mode ending annotations isTemplate keyword tokens).Gives fun read rest =>
      TypeRead ending keyword tokens read.1 read.2 rest := by
  rw [classDeclaration]
  split
  · exact .of_error _ _
  · next opening inner hread =>
    have hinner := Read.suffix_of_done (classOpening_suffix ending tokens) hread
    dsimp only
    split
    · refine Recorded.Gives.within _ (classBody_closed.andThen _ fun members hclosed => ?_)
      obtain ⟨closing, hclosing, hsuffix⟩ := hclosed
      have hplace := hsuffix.trans hinner
      unfold classEnd
      cases hnames : typeDeclarators ending none (classBody mode ending opening.name.getLast?
          (classKey keyword).defaultAccess inner).rest with
      | failed error after => trivial
      | done names after => exact .of_read ⟨rfl, ⟨closing, hclosing, hplace⟩, rfl⟩ hnames
    · exact .of_ok [] _ (.declared rfl rfl)

theorem enumDeclaration_typeRead (keyword : Token) :
    (enumDeclaration ending annotations keyword tokens).Gives fun read rest =>
      TypeRead ending keyword tokens (.enumDecl read.1) read.2 rest := by
  have hfront : (if kindAt tokens = .classKw ∨ kindAt tokens = .structKw then tokens.tail
      else tokens) <:+ tokens := by
    split
    · exact List.tail_suffix tokens
    · exact List.suffix_refl tokens
  refine (Read.Gives.of_suffix ((specifiers_suffix ending _).trans hfront)).bind
    fun attributes named hnamed => ?_
  have hname := (qualifiedName_suffix named).trans hnamed
  have hbehind : (if kindAt (qualifiedName named).2 = .colon
      then skipUnderlyingType ending (qualifiedName named).2.tail
      else .done () (qualifiedName named).2).rest <:+ tokens := by
    split
    · exact ((skipUnderlyingType_suffix ending _).trans (List.tail_suffix _)).trans hname
    · exact hname
  refine (Read.Gives.of_suffix hbehind).bind fun _ opened hopened => ?_
  split
  · exact .declared rfl rfl
  · refine (Read.Gives.of_suffix ((expect_suffix ending .lBrace opened).trans hopened)).bind
      fun _ inner hinner => ?_
    refine (Read.Gives.of_suffix ((enumerators_suffix ending inner).trans hinner)).bind
      fun decls closed hclosed => ?_
    refine expect_gives.bind fun _ after hafter => ?_
    obtain hend | ⟨closing, hclosing, rfl⟩ := hafter
    · cases hend
    · cases hnames : typeDeclarators ending none after with
      | failed error rest => trivial
      | done names rest => exact .of_read ⟨rfl, ⟨closing, hclosing, hclosed⟩, rfl⟩ hnames

end Types

section Steps

-- What a declaration of a class body gives, by its form: a type with the fields of its declarators,
-- a template without any, or members that are no types.
inductive DeclarationGives (ending : Token) (access : Access) (next : List Token) :
    List Token → List Member → Prop where
  | type {keyword : Token} {inner names : List Token} {entity : Entity}
      (hform : memberForm (keyword :: inner) = .classType ∨
        memberForm (keyword :: inner) = .enumType)
      (hread : TypeRead ending keyword inner entity names next) :
      DeclarationGives ending access next (keyword :: inner)
        (.type entity :: names.map fun name => .field {
          name := name.word
          isStatic := false
          access
          annotations := []
          span := name.span })
  | template {tokens : List Token} {entity : Option Entity} (hform : memberForm tokens = .template) :
      DeclarationGives ending access next tokens (entity.toList.map .type)
  | other {tokens : List Token} {members : List Member}
      (hform : memberForm tokens ∉ [.classType, .enumType, .template])
      (hmembers : ∀ entity, .type entity ∉ members) :
      DeclarationGives ending access next tokens members

theorem ofRecorded_done {bound : Nat} {read : Recorded (List Member) bound}
    (h : (MemberStep.ofRecorded access read).error = none) :
    read.outcome = .ok (MemberStep.ofRecorded access read).members ∧
      (MemberStep.ofRecorded access read).next = read.rest := by
  unfold MemberStep.ofRecorded MemberStep.next at *
  cases houtcome : read.outcome with
  | error error => simp [houtcome] at h
  | ok members => exact ⟨rfl, rfl⟩

theorem typeMembers_gives {α : Type} {bound smaller : Nat} {read : Recorded α smaller}
    {entity : α → Entity} {names : α → List Token} {keyword : Token} {inner : List Token}
    (hform : memberForm (keyword :: inner) = .classType ∨
      memberForm (keyword :: inner) = .enumType)
    (hread : read.Gives fun value rest =>
      TypeRead ending keyword inner (entity value) (names value) rest)
    (hle : smaller ≤ bound) {step : MemberStep bound}
    (hstep : step = .ofRecorded access ((read.map fun value =>
      typeMembers access (entity value) (names value)).within hle))
    (herror : step.error = none) :
    DeclarationGives ending access step.next (keyword :: inner) step.members := by
  subst hstep
  obtain ⟨houtcome, hnext⟩ := ofRecorded_done herror
  obtain ⟨value, hvalue, hmembers⟩ := outcome_map_ok houtcome
  rw [hnext, ← hmembers]
  exact .type hform (hread value hvalue)

theorem member_gives
    (h : (member mode ending className access annotations tokens).error = none) :
    DeclarationGives ending access (member mode ending className access annotations tokens).next
      tokens (member mode ending className access annotations tokens).members := by
  cases tokens with
  | nil =>
      rw [member]
      exact .other (by decide) fun _ => List.not_mem_nil
  | cons token rest =>
      have hmember := member_cons mode ending className access annotations token rest
      cases hform : memberForm (token :: rest) with
      | classType =>
          rw [hform] at hmember
          exact typeMembers_gives (.inl hform) (classDeclaration_typeRead false token) _ hmember h
      | enumType =>
          rw [hform] at hmember
          have hread := Recorded.Gives.ofRead
            (enumDeclaration_suffix ending annotations token rest).length_le
            (enumDeclaration_typeRead token)
          exact typeMembers_gives (.inr hform) hread (Nat.le_succ _) hmember h
      | template =>
          rw [hform] at hmember
          rw [hmember] at h ⊢
          obtain ⟨houtcome, _⟩ := ofRecorded_done h
          obtain ⟨entity, _, hmembers⟩ := outcome_map_ok houtcome
          rw [← hmembers]
          exact .template hform
      | plain =>
          rw [hform] at hmember
          refine .other (by rw [hform]; decide) fun entity hmem => ?_
          rw [hmember] at hmem
          have haccess := plainMembers_access _ hmem
          cases haccess
      | label | skipped | empty | closing =>
          rw [hform] at hmember
          refine .other (by rw [hform]; decide) fun entity hmem => ?_
          rw [hmember] at hmem
          exact absurd hmem List.not_mem_nil

theorem memberStep_gives
    (h : (memberStep mode ending className access tokens).error = none) :
    ∃ annotations declared, leadingAnnotations ending tokens = .done annotations declared ∧
      DeclarationGives ending access (memberStep mode ending className access tokens).next declared
        (memberStep mode ending className access tokens).members := by
  cases hlead : leadingAnnotations ending tokens with
  | failed error rest =>
      rw [memberStep_eq_after, MemberStep.after_failed hlead] at h
      cases h
  | done annotations declared =>
      rw [memberStep_eq_after, MemberStep.after_done hlead] at h ⊢
      have hmember : (member mode ending className access annotations declared).error = none := h
      exact ⟨annotations, declared, rfl, member_gives hmember⟩

end Steps

section Bodies

theorem Recorded.Halted.of_ok {α : Type} {bound : Nat} {tolerant fatal : Recorded α bound}
    (h : tolerant.Halted fatal) {value : α} (hfatal : fatal.outcome = .ok value) :
    fatal = tolerant := by
  cases hreported : tolerant.recovered with
  | nil => exact h.same hreported
  | cons first others =>
      rw [(h.ended first others hreported).1] at hfatal
      cases hfatal

theorem MemberStep.Halted.of_accepted {bound : Nat} {tolerant fatal : MemberStep bound}
    (h : tolerant.Halted fatal) (hfatal : fatal.error = none) :
    fatal = tolerant ∧ tolerant.errors = [] := by
  cases hreported : tolerant.recovered with
  | nil =>
      have hsame := h.same hreported
      exact ⟨hsame, by rw [MemberStep.errors, hreported, ← hsame, hfatal]; rfl⟩
  | cons first others =>
      rw [(h.ended first others hreported).1] at hfatal
      cases hfatal

-- A body that is read to its end with fatal errors goes through the same declarations with others,
-- and none of them reports anything.
theorem bodyPasses_accepted {members : List Member}
    (h : (classBody .fatal ending className access tokens).outcome = .ok members) :
    bodyPasses .fatal ending className access tokens =
        bodyPasses .tolerant ending className access tokens ∧
      ∀ pass ∈ bodyPasses .fatal ending className access tokens,
        (memberStep .tolerant ending className pass.access pass.tokens).errors = [] := by
  fun_induction bodyPasses .fatal ending className access tokens generalizing members
  case case1 => exact ⟨by rw [bodyPasses], List.forall_mem_nil _⟩
  case case2 access token rest hbrace => exact ⟨by rw [bodyPasses, if_pos hbrace], List.forall_mem_nil _⟩
  case case3 access token rest hbrace step ih =>
    have hnone := (classBody_goes_on hbrace h).resolve_left (by decide)
    have hhalted := @memberStep_halted ending (token :: rest) className access
      fun annotations isTemplate keyword inner _ =>
        classDeclaration_halted annotations isTemplate keyword inner
    obtain ⟨hsame, herrors⟩ := hhalted.of_accepted hnone
    rw [(classBody_extends className access hbrace (.inr hnone)).outcome] at h
    obtain ⟨others, hothers, -⟩ := outcome_map_ok h
    obtain ⟨hpasses, hunreported⟩ := ih hothers
    refine ⟨?_, List.forall_mem_cons.mpr ⟨herrors, hunreported⟩⟩
    rw [hpasses, bodyPasses, if_neg hbrace]
    simp only [step, hsame]

-- How the declarations of a class body make up its members: one after the other, each with what its
-- form gives, under the access of the last label in front of it.
structure TypesPlaced (ending : Token) (className : Option String) (access : Access)
    (body : List Token) (members : List Member) : Prop where
  members_eq : members = (bodyPasses .tolerant ending className access body).flatMap
    (BodyPass.members .tolerant ending className)
  unreported : ∀ pass ∈ bodyPasses .tolerant ending className access body,
    (memberStep .tolerant ending className pass.access pass.tokens).errors = []
  goes_on : ∀ before pass later after,
    bodyPasses .tolerant ending className access body = before ++ pass :: later :: after →
      later.tokens = resume pass.tokens
        (memberStep .tolerant ending className pass.access pass.tokens).next
  accesses : ∀ before pass after,
    bodyPasses .tolerant ending className access body = before ++ pass :: after →
      pass.access = lastAccess access (BodyPass.labels ending before)
  gives : ∀ pass ∈ bodyPasses .tolerant ending className access body,
    ∃ annotations declared, leadingAnnotations ending pass.tokens = .done annotations declared ∧
      DeclarationGives ending pass.access
        (memberStep .tolerant ending className pass.access pass.tokens).next declared
        (pass.members .tolerant ending className)

-- By induction on the declarations in front.
theorem bodyPasses_goes_on {before after : List BodyPass} {pass later : BodyPass}
    (h : bodyPasses mode ending className access tokens = before ++ pass :: later :: after) :
    later.tokens = resume pass.tokens
      (memberStep mode ending className pass.access pass.tokens).next := by
  induction before generalizing access tokens with
  | nil =>
      obtain ⟨token, rest, rfl, hbrace⟩ := bodyPasses_cons h
      rw [bodyPasses, if_neg hbrace] at h
      obtain ⟨rfl, hothers⟩ := List.cons.inj h
      obtain ⟨first, more, hfirst, hopen⟩ := bodyPasses_cons hothers
      rw [hfirst, bodyPasses, if_neg hopen] at hothers
      exact (congrArg BodyPass.tokens (List.cons.inj hothers).1).symm.trans hfirst.symm
  | cons first before ih =>
      obtain ⟨token, rest, rfl, hbrace⟩ := bodyPasses_cons h
      rw [bodyPasses, if_neg hbrace] at h
      exact ih (List.cons.inj h).2

theorem classBody_types {members : List Member}
    (h : (classBody .fatal ending className access tokens).outcome = .ok members) :
    TypesPlaced ending className access tokens members := by
  have hhalted := @classBody_halted ending className access tokens
    fun annotations isTemplate keyword inner _ =>
      classDeclaration_halted annotations isTemplate keyword inner
  obtain ⟨hpasses, hunreported⟩ := bodyPasses_accepted h
  rw [hpasses] at hunreported
  refine ⟨classBody_passes (hhalted.of_ok h ▸ h), hunreported, fun _ _ _ _ => bodyPasses_goes_on,
    fun _ _ _ => access_of_passes, fun pass hmem => memberStep_gives ?_⟩
  exact Option.toList_eq_nil_iff.mp (List.append_eq_nil_iff.mp (hunreported pass hmem)).2

end Bodies

section Headers

-- Without a report a header reads the same with fatal errors.
theorem parse_accepted {text : List Char} {parsed : Parsed}
    (h : parse .tolerant text = .ok parsed) (hreports : parsed.recovered = []) :
    parse .fatal text = .ok parsed := by
  obtain ⟨entities, hentities⟩ := @scope_tolerant_ok (scan text).ending false (scan text).items
  have hscope : (scope .tolerant (scan text).ending false (scan text).items).recovered = [] := by
    rw [parse_of_ok hentities] at h
    cases h
    exact hreports
  have hsame := (scope_halted false (scan text).items).same hscope
  rw [← h, parse, parse, parseTokens, parseTokens, hsame]

-- A class stands at one of the tokens of the text, and its members are those that its own body
-- gives, with the declarators behind its nested types.
def ClassWithTypes (text : List Char) (head : ClassHead) (members : List Member) : Prop :=
  ∃ keyword rest names after opening body, keyword :: rest <:+ (scan text).items ∧
    TypeRead (scan text).ending keyword rest (.classDecl head members) names after ∧
    classKey keyword = head.key ∧ classOpening (scan text).ending rest = .done opening body ∧
    TypesPlaced (scan text).ending opening.name.getLast? head.key.defaultAccess body members

-- At every depth of a header in which nothing is reported.
theorem class_type_declarators {text : List Char} {parsed : Parsed}
    (hparse : parse .tolerant text = .ok parsed) (hreports : parsed.recovered = [])
    {entity : Entity} (hentity : entity ∈ parsed.tree.entities) {head : ClassHead}
    {members : List Member} (hclass : entity.HasClass head members)
    (hdefinition : head.isDefinition = true) :
    ClassWithTypes text head members := by
  obtain ⟨annotations, isTemplate, keyword, rest, names, hplace, hread⟩ :=
    parse_classRead (parse_accepted hparse hreports) hentity hclass
  obtain ⟨opening, body, hkey, hopening, hbody⟩ :=
    classDeclaration_body annotations isTemplate keyword _ hread head members rfl hdefinition
  have htype := classDeclaration_typeRead isTemplate keyword _ hread
  exact ⟨keyword, rest, names, _, opening, body, hplace, htype, hkey, hopening,
    classBody_types hbody⟩

def typesSample : List Char :=
  ("class C \x7b enum M \x7b A \x7d m; protected: " ++
    "struct \x7b union \x7b int y; \x7d u; \x7d p, *q[2] = \x7b\x7d; struct F; int z; \x7d;").toList

-- Each declarator stands behind its own type.
example : (firstClass .tolerant typesSample).map (fun read => read.2.map Member.brief) =
    some [none, some ("m", .privateAccess, []), none, some ("p", .protectedAccess, []),
      some ("q", .protectedAccess, []), none, some ("z", .protectedAccess, [])] := by
  unfold typesSample
  simp only [String.toList_append, String.reduceToList]
  decide +kernel

theorem class_type_declarators_sample :
    ∃ parsed entity head members, parse .tolerant typesSample = .ok parsed ∧
      parsed.recovered = [] ∧ entity ∈ parsed.tree.entities ∧ entity.HasClass head members ∧
      head.isDefinition = true ∧ ClassWithTypes typesSample head members := by
  have hsample : (parse .tolerant typesSample).toOption.any (fun parsed =>
      parsed.recovered.isEmpty &&
        (parsed.tree.entities.head?.bind Entity.ownClass).any (·.1.isDefinition)) = true := by
    unfold typesSample
    simp only [String.toList_append, String.reduceToList]
    decide +kernel
  obtain ⟨parsed, hparsed, hread⟩ := (Option.any_eq_true _ _).mp hsample
  obtain ⟨hempty, hfirst⟩ := Bool.and_eq_true_iff.mp hread
  obtain ⟨⟨head, members⟩, hown, hdefinition⟩ := (Option.any_eq_true _ _).mp hfirst
  obtain ⟨entity, hentity, hclass⟩ := Option.bind_eq_some_iff.mp hown
  have hparse : parse .tolerant typesSample = .ok parsed := eq_ok_of_toOption hparsed
  have hreports := List.isEmpty_iff.mp hempty
  have hmem := List.mem_of_head? hentity
  have hhas := Entity.hasClass_of_ownClass hclass
  exact ⟨parsed, entity, head, members, hparse, hreports, hmem, hhas, hdefinition,
    class_type_declarators hparse hreports hmem hhas hdefinition⟩

end Headers

end Reflection.Header
