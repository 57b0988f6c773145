import Reflection.Proofs.Header.Members.Access
import Reflection.Proofs.Header.Spans.Nested

namespace Reflection

-- A class somewhere in a declaration.
inductive Entity.HasClass (head : ClassHead) (members : List Member) : Entity → Prop where
  | here : HasClass head members (.classDecl head members)
  | scope {other : NamespaceHead} {entities : List Entity} {entity : Entity}
      (hmem : entity ∈ entities) (h : HasClass head members entity) :
      HasClass head members (.namespaceDecl other entities)
  | inner {other : ClassHead} {others : List Member} {entity : Entity}
      (hmem : .type entity ∈ others) (h : HasClass head members entity) :
      HasClass head members (.classDecl other others)

-- The class that a declaration is.
def Entity.ownClass : Entity → Option (ClassHead × List Member)
  | namespaceDecl _ _ => none
  | classDecl head members => some (head, members)
  | enumDecl _ => none

theorem Entity.hasClass_of_ownClass {entity : Entity} {head : ClassHead} {members : List Member}
    (h : entity.ownClass = some (head, members)) : entity.HasClass head members := by
  cases entity <;> cases h
  exact .here

namespace Header

section Bodies

-- A declaration of a class body: where it starts, and the access in force there.
structure BodyPass where
  access : Access
  tokens : List Token

-- The declarations of a body that reading goes through, up to the brace that closes the body.
def bodyPasses (mode : ErrorMode) (ending : Token) (className : Option String) (access : Access) :
    List Token → List BodyPass
  | [] => []
  | token :: rest =>
    if token.kind = .rBrace then []
    else
      let step := memberStep mode ending className access (token :: rest)
      ⟨access, token :: rest⟩ ::
        bodyPasses mode ending className step.access (resume (token :: rest) step.next)
termination_by tokens => tokens.length
decreasing_by exact Nat.lt_succ_of_le resume_length

def BodyPass.members (mode : ErrorMode) (ending : Token) (className : Option String)
    (pass : BodyPass) : List Member :=
  (memberStep mode ending className pass.access pass.tokens).members

variable {mode : ErrorMode} {ending : Token} {className : Option String} {access : Access}
  {tokens : List Token}

theorem bodyPasses_cons {pass : BodyPass} {passes : List BodyPass}
    (h : bodyPasses mode ending className access tokens = pass :: passes) :
    ∃ token rest, tokens = token :: rest ∧ token.kind ≠ .rBrace := by
  cases tokens with
  | nil =>
      rw [bodyPasses] at h
      cases h
  | cons token rest =>
      refine ⟨token, rest, rfl, fun hbrace => ?_⟩
      rw [bodyPasses, if_pos hbrace] at h
      cases h

theorem memberStep_rest_suffix : (memberStep mode ending className access tokens).rest <:+ tokens :=
  Reported.suffix (memberStep_stays className access fun annotations isTemplate keyword inner _ =>
    classDeclaration_stays annotations isTemplate keyword inner)

-- By induction on the declarations: each starts behind the one in front of it.
theorem bodyPasses_suffix :
    ∀ pass ∈ bodyPasses mode ending className access tokens, pass.tokens <:+ tokens := by
  fun_induction bodyPasses mode ending className access tokens with
  | case1 => exact fun pass hmem => absurd hmem List.not_mem_nil
  | case2 => exact fun pass hmem => absurd hmem List.not_mem_nil
  | case3 access token rest hbrace step ih =>
      have hnext : step.next <:+ token :: rest := step.next_suffix.trans memberStep_rest_suffix
      have hplace : resume (token :: rest) step.next <:+ token :: rest :=
        (resume_suffix hnext).trans hnext
      exact List.forall_mem_cons.mpr
        ⟨List.suffix_refl _, fun pass hmem => (ih pass hmem).trans hplace⟩

theorem outcome_map_ok {α β : Type} {f : α → β} {outcome : Except ParseError α} {value : β}
    (h : outcome.map f = .ok value) : ∃ first, outcome = .ok first ∧ f first = value := by
  cases outcome with
  | error error => cases h
  | ok first => exact ⟨first, rfl, Except.ok.inj h⟩

-- A body that is read to its end goes on after each of its declarations.
theorem classBody_goes_on {token : Token} {rest : List Token} {members : List Member}
    (hbrace : token.kind ≠ .rBrace)
    (h : (classBody mode ending className access (token :: rest)).outcome = .ok members) :
    mode = .tolerant ∨ (memberStep mode ending className access (token :: rest)).error = none := by
  cases mode with
  | tolerant => exact .inl rfl
  | fatal =>
      cases herror : (memberStep .fatal ending className access (token :: rest)).error with
      | none => exact .inr rfl
      | some error =>
          rw [(classBody_fatal_error className access hbrace herror).1] at h
          cases h

-- What a body gives is what its declarations give, one after the other.
theorem classBody_passes {members : List Member}
    (h : (classBody mode ending className access tokens).outcome = .ok members) :
    members = (bodyPasses mode ending className access tokens).flatMap
      (BodyPass.members mode ending className) := by
  fun_induction bodyPasses mode ending className access tokens generalizing members
  case case1 =>
    rw [classBody] at h
    cases h
  case case2 access token rest hbrace =>
    rw [classBody_rBrace mode ending className access hbrace] at h
    cases h
    rfl
  case case3 access token rest hbrace step ih =>
    have hextends := classBody_extends className access hbrace (classBody_goes_on hbrace h)
    rw [hextends.outcome] at h
    obtain ⟨others, hothers, rfl⟩ := outcome_map_ok h
    rw [List.flatMap_cons, ← ih hothers]
    rfl

end Bodies

section Classes

variable {mode : ErrorMode} {ending : Token} {items tokens : List Token}
  {annotations : List AnnotationBlock} {bound : Nat}

-- A class that the declaration behind one of the tokens is read as.
def ClassRead (mode : ErrorMode) (ending : Token) (items : List Token) (head : ClassHead)
    (members : List Member) : Prop :=
  ∃ annotations isTemplate keyword rest names, keyword :: rest <:+ items ∧
    (classDeclaration mode ending annotations isTemplate keyword rest).outcome =
      .ok (.classDecl head members, names)

def ClassesRead (mode : ErrorMode) (ending : Token) (items : List Token) (entity : Entity) : Prop :=
  ∀ head members, entity.HasClass head members → ClassRead mode ending items head members

def TypesRead (mode : ErrorMode) (ending : Token) (items : List Token) (members : List Member) :
    Prop :=
  ∀ entity, .type entity ∈ members → ClassesRead mode ending items entity

theorem TypesRead.of_fields {members : List Member}
    (h : ∀ member ∈ members, ∀ entity, member ≠ .type entity) :
    TypesRead mode ending items members :=
  fun entity hmem => absurd rfl (h _ hmem entity)

theorem enumDecl_read (decl : EnumDecl) : ClassesRead mode ending items (.enumDecl decl) :=
  fun _ _ h => nomatch h

theorem typeMembers_read {entity : Entity} (h : ClassesRead mode ending items entity)
    (access : Access) (names : List Token) :
    TypesRead mode ending items (typeMembers access entity names) := by
  intro other hmem
  rcases List.mem_cons.mp hmem with hsame | hmem
  · cases hsame
    exact h
  · obtain ⟨name, _, hname⟩ := List.mem_map.mp hmem
    cases hname

theorem types_read {entities : List Entity}
    (h : ∀ entity ∈ entities, ClassesRead mode ending items entity) :
    TypesRead mode ending items (entities.map .type) := by
  intro entity hmem
  obtain ⟨other, hother, hentity⟩ := List.mem_map.mp hmem
  cases hentity
  exact h entity hother

theorem ofRecorded_read (access : Access) {read : Recorded (List Member) bound}
    (h : read.Gives fun members _ => TypesRead mode ending items members) :
    TypesRead mode ending items (MemberStep.ofRecorded access read).members := by
  unfold MemberStep.ofRecorded
  cases houtcome : read.outcome with
  | error error => exact .of_fields (by simp)
  | ok members => exact h members houtcome

-- The statement about the classes that start at one of these tokens, for declarations around them.
def ReadsClasses (mode : ErrorMode) (ending : Token) (items tokens : List Token) : Prop :=
  ∀ annotations isTemplate keyword rest, keyword :: rest <:+ tokens →
    (classDeclaration mode ending annotations isTemplate keyword rest).Gives fun read _ =>
      ClassesRead mode ending items read.1

theorem ReadsClasses.suffix {inner : List Token} (hclass : ReadsClasses mode ending items tokens)
    (h : inner <:+ tokens) : ReadsClasses mode ending items inner :=
  fun annotations isTemplate keyword rest hplace =>
    hclass annotations isTemplate keyword rest (hplace.trans h)

theorem templateDeclaration_read (hclass : ReadsClasses mode ending items tokens) :
    (templateDeclaration mode ending annotations tokens).Gives fun entity _ =>
      ∀ other ∈ entity.toList, ClassesRead mode ending items other := by
  rw [templateDeclaration]
  split
  · exact .of_error _ _
  · exact .of_error _ _
  · next keyword rest hread =>
    have hsuffix := Read.suffix_of_done (skipTemplateArguments_suffix ending tokens) hread
    refine Recorded.Gives.within _ ?_
    split
    · refine ((hclass annotations true keyword rest hsuffix).map fun read hclasses => ?_).within _
      exact List.forall_mem_singleton.mpr hclasses
    · have hskip := Read.Gives.of_suffix (skipDeclaration_suffix ending .nothing (keyword :: rest))
      exact (Recorded.Gives.ofRead _ hskip).map fun _ _ => by simp

theorem plainMembers_read (context : MemberContext) :
    TypesRead mode ending items (plainMembers context ending tokens).members := by
  refine .of_fields fun member hmem entity htype => ?_
  have haccess := plainMembers_access member hmem
  rw [htype] at haccess
  cases haccess

theorem member_read (name : Option String) (access : Access)
    (hclass : ReadsClasses mode ending items tokens) :
    TypesRead mode ending items (member mode ending name access annotations tokens).members := by
  cases tokens with
  | nil =>
      rw [member]
      exact .of_fields (by simp [MemberStep.nothing])
  | cons token rest =>
      rw [member_cons]
      cases memberForm (token :: rest) with
      | classType =>
          have hread := hclass annotations false token rest (List.suffix_refl _)
          exact ofRecorded_read access
            ((hread.map fun read hclasses => typeMembers_read hclasses access read.2).within _)
      | enumType =>
          have hread := Recorded.Gives.ofRead
            (enumDeclaration_suffix ending annotations token rest).length_le
            (Read.Gives.of_suffix (enumDeclaration_suffix ending annotations token rest))
          exact ofRecorded_read access ((hread.map fun read _ =>
            typeMembers_read (enumDecl_read read.1) access read.2).within (Nat.le_succ _))
      | template =>
          have hread := @templateDeclaration_read mode ending items rest annotations
            (hclass.suffix (List.suffix_cons token rest))
          exact ofRecorded_read access ((hread.map fun _ hclasses => types_read hclasses).within _)
      | plain => exact plainMembers_read _
      | _ => exact .of_fields (by simp [MemberStep.ofSkip, MemberStep.nothing])

theorem memberStep_read (name : Option String) (access : Access)
    (hclass : ReadsClasses mode ending items tokens) :
    TypesRead mode ending items (memberStep mode ending name access tokens).members := by
  rw [memberStep]
  split
  · exact .of_fields (by simp [MemberStep.failed])
  · next annotations rest hread =>
    have hsuffix := Read.suffix_of_done (leadingAnnotations_suffix ending tokens) hread
    exact member_read name access (hclass.suffix hsuffix)

theorem classBody_read (name : Option String) (access : Access)
    (hclass : ReadsClasses mode ending items tokens) :
    (classBody mode ending name access tokens).Gives fun members _ =>
      TypesRead mode ending items members := by
  intro members hmembers entity hmem
  rw [classBody_passes hmembers, List.mem_flatMap] at hmem
  obtain ⟨pass, hpass, hentity⟩ := hmem
  exact memberStep_read name pass.access (hclass.suffix (bodyPasses_suffix pass hpass)) entity
    hentity

-- What a class declaration gives: the class itself, with the types in its body.
theorem classDeclaration_types (keyword : Token) (hclass : ReadsClasses mode ending items tokens)
    (isTemplate : Bool) :
    (classDeclaration mode ending annotations isTemplate keyword tokens).Gives fun read _ =>
      ∃ head members, read.1 = .classDecl head members ∧ TypesRead mode ending items members := by
  rw [classDeclaration]
  split
  · exact .of_error _ _
  · next opening rest hread =>
    have hrest := Read.suffix_of_done (classOpening_suffix ending tokens) hread
    dsimp only
    split
    · have hbody := @classBody_read mode ending items rest opening.name.getLast?
        (classKey keyword).defaultAccess (hclass.suffix hrest)
      refine Recorded.Gives.within _ (hbody.andThen _ fun members hmembers => ?_)
      have hnames := Read.Gives.of_suffix (typeDeclarators_suffix ending none
        (classBody mode ending opening.name.getLast? (classKey keyword).defaultAccess rest).rest)
      exact hnames.map fun _ _ _ => ⟨_, members, rfl, hmembers⟩
    · exact .of_ok [] _ ⟨_, [], rfl, .of_fields (by simp)⟩

-- By well-founded recursion: the classes in a class are read from fewer tokens.
theorem classDeclaration_read (annotations : List AnnotationBlock) (isTemplate : Bool)
    (keyword : Token) (tokens : List Token) (h : keyword :: tokens <:+ items) :
    (classDeclaration mode ending annotations isTemplate keyword tokens).Gives fun read _ =>
      ClassesRead mode ending items read.1 := by
  intro read hread head members hclass
  have hinner : ReadsClasses mode ending items tokens :=
    fun annotations isTemplate other rest hrest =>
      have hlength : rest.length < tokens.length := hrest.length_le
      classDeclaration_read annotations isTemplate other rest
        ((hrest.trans (List.suffix_cons keyword tokens)).trans h)
  obtain ⟨own, others, howner, htypes⟩ :=
    classDeclaration_types keyword hinner isTemplate read hread
  obtain ⟨entity, names⟩ := read
  change entity = _ at howner
  subst howner
  cases hclass with
  | here => exact ⟨annotations, isTemplate, keyword, tokens, names, h, hread⟩
  | inner hmem hdeep => exact htypes _ hmem head members hdeep
termination_by tokens.length

-- The body that a class with a definition is read from.
theorem classDeclaration_body (annotations : List AnnotationBlock) (isTemplate : Bool)
    (keyword : Token) :
    (classDeclaration mode ending annotations isTemplate keyword tokens).Gives fun read _ =>
      ∀ head members, read.1 = .classDecl head members → head.isDefinition = true →
        ∃ opening body, classKey keyword = head.key ∧
          classOpening ending tokens = .done opening body ∧
          (classBody mode ending opening.name.getLast? head.key.defaultAccess body).outcome =
            .ok members := by
  rw [classDeclaration]
  split
  · exact .of_error _ _
  · next opening rest hread =>
    dsimp only
    split
    · have hbody : (classBody mode ending opening.name.getLast?
          (classKey keyword).defaultAccess rest).Gives fun members _ => _ = Except.ok members :=
        fun _ hmembers => hmembers
      refine Recorded.Gives.within _ (hbody.andThen _ fun found hfound => ?_)
      have hnames := Read.Gives.of_suffix (typeDeclarators_suffix ending none
        (classBody mode ending opening.name.getLast? (classKey keyword).defaultAccess rest).rest)
      refine hnames.map fun names _ _ head members hclass _ => ?_
      cases hclass
      exact ⟨opening, rest, rfl, hread, hfound⟩
    · refine .of_ok [] _ fun head members hclass hdefinition => ?_
      cases hclass
      cases hdefinition

end Classes

section Scopes

variable {mode : ErrorMode} {ending : Token} {items tokens : List Token}
  {annotations : List AnnotationBlock}

def EntitiesRead (mode : ErrorMode) (ending : Token) (items : List Token)
    (entities : List Entity) : Prop :=
  ∀ entity ∈ entities, ClassesRead mode ending items entity

def ScopeRead (mode : ErrorMode) (ending : Token) (items tokens : List Token) : Prop :=
  (scope mode ending true tokens).Gives fun entities _ => EntitiesRead mode ending items entities

theorem closeScope_read {α : Type} {P : α → Prop} {value : List Token → α}
    (h : ∀ rest, P (value rest)) : (closeScope ending value tokens).Gives fun value _ => P value :=
  (Read.Gives.of_suffix (expect_suffix ending .rBrace tokens)).bind fun _ rest _ => h rest

theorem namespaceDeclaration_read (isInline : Bool) (keyword : Token)
    (hscope : ∀ inner, inner <:+ tokens → ScopeRead mode ending items inner) :
    (namespaceDeclaration mode ending isInline keyword tokens).Gives fun entities _ =>
      EntitiesRead mode ending items entities := by
  rw [namespaceDeclaration]
  split
  · exact .of_error _ _
  · next opening rest hread =>
    have hrest := Read.suffix_of_done (namespaceOpening_suffix ending tokens) hread
    split
    · refine Recorded.Gives.within _ ((hscope rest hrest).andThen _ fun entities hentities => ?_)
      refine closeScope_read fun stop => List.forall_mem_singleton.mpr fun head members hclass => ?_
      cases hclass with
      | scope hmem hinner => exact hentities _ hmem head members hinner
    · exact .of_ok [] _ (by simp [EntitiesRead])

theorem scopeDeclaration_read (h : tokens <:+ items)
    (hscope : ∀ inner, inner <:+ tokens → inner.length < tokens.length →
      ScopeRead mode ending items inner) :
    (scopeDeclaration mode ending annotations tokens).Gives fun entities _ =>
      EntitiesRead mode ending items entities := by
  cases tokens with
  | nil =>
      rw [scopeDeclaration]
      exact .of_ok [] _ (by simp [EntitiesRead])
  | cons token rest =>
      have hrest : rest <:+ token :: rest := List.suffix_cons token rest
      have hshorter (inner : List Token) (hinner : inner <:+ rest) :
          ScopeRead mode ending items inner :=
        hscope inner (hinner.trans hrest) (Nat.lt_succ_of_le hinner.length_le)
      rw [scopeDeclaration_cons]
      cases scopeForm (token :: rest) with
      | namespaceDecl => exact (namespaceDeclaration_read false token hshorter).within _
      | inlineNamespace =>
          exact (namespaceDeclaration_read true (rest.headD ending) fun inner hinner =>
            hshorter inner (hinner.trans (List.tail_suffix rest))).within _
      | linkage =>
          have htail : rest.tail.tail <:+ rest := (List.tail_suffix _).trans (List.tail_suffix rest)
          exact Recorded.Gives.within _ ((hshorter _ htail).andThen _ fun entities hentities =>
            closeScope_read fun _ => hentities)
      | classType =>
          have hread := @classDeclaration_read mode ending items annotations false token rest h
          exact (hread.map fun _ hclasses => List.forall_mem_singleton.mpr hclasses).within _
      | enumType =>
          have hread := Recorded.Gives.ofRead
            (enumDeclaration_suffix ending annotations token rest).length_le
            (Read.Gives.of_suffix (enumDeclaration_suffix ending annotations token rest))
          exact (hread.map fun read _ =>
            List.forall_mem_singleton.mpr (enumDecl_read read.1)).within (Nat.le_succ _)
      | template =>
          have hread := @templateDeclaration_read mode ending items rest annotations
            fun annotations isTemplate keyword inner hinner =>
              classDeclaration_read annotations isTemplate keyword inner
                ((hinner.trans hrest).trans h)
          exact (hread.map fun _ hclasses => hclasses).within _
      | empty => exact .of_ok [] _ (by simp [EntitiesRead])
      | closing => exact .of_ok [] _ (by simp [EntitiesRead])
      | skipped =>
          have hskip := Read.Gives.of_suffix
            (skipDeclaration_suffix ending .nothing (token :: rest))
          exact (Recorded.Gives.ofRead _ hskip).map fun _ _ => by simp [EntitiesRead]

theorem scopeItem_read (h : tokens <:+ items)
    (hscope : ∀ inner, inner <:+ tokens → inner.length < tokens.length →
      ScopeRead mode ending items inner) :
    (scopeItem mode ending tokens).Gives fun entities _ =>
      EntitiesRead mode ending items entities := by
  rw [scopeItem]
  split
  · exact .of_error _ _
  · next annotations rest hread =>
    have hrest := Read.suffix_of_done (leadingAnnotations_suffix ending tokens) hread
    exact (scopeDeclaration_read (hrest.trans h) fun inner hinner hlt => hscope inner
      (hinner.trans hrest) (Nat.lt_of_lt_of_le hlt hrest.length_le)).within _

-- A scope that is read to its end goes on after each of its declarations.
theorem scope_goes_on {nested : Bool} {token : Token} {rest : List Token} {entities : List Entity}
    (hbrace : token.kind ≠ .rBrace)
    (h : (scope mode ending nested (token :: rest)).outcome = .ok entities) :
    mode = .tolerant ∨ ∃ found, (scopeItem mode ending (token :: rest)).outcome = .ok found := by
  cases mode with
  | tolerant => exact .inl rfl
  | fatal =>
      cases houtcome : (scopeItem .fatal ending (token :: rest)).outcome with
      | ok found => exact .inr ⟨found, rfl⟩
      | error error =>
          rw [(scope_fatal_error nested hbrace houtcome).1] at h
          cases h

theorem scopeItem_rest_suffix : (scopeItem mode ending tokens).rest <:+ tokens :=
  Reported.suffix (scopeItem_stays fun inner _ => scope_stays mode true inner)

-- By well-founded recursion, as the scope is read.
theorem scope_read (mode : ErrorMode) (nested : Bool) (tokens : List Token)
    (h : tokens <:+ items) :
    (scope mode ending nested tokens).Gives fun entities _ =>
      EntitiesRead mode ending items entities := by
  intro entities hentities
  match tokens with
  | [] =>
      rw [scope_nil] at hentities
      cases nested <;> cases mode <;> cases hentities <;> simp [EntitiesRead]
  | token :: rest =>
      by_cases hbrace : token.kind = .rBrace
      · rw [scope_rBrace mode ending nested hbrace] at hentities
        cases nested with
        | true =>
            cases hentities
            simp [EntitiesRead]
        | false =>
            cases mode with
            | fatal => cases hentities
            | tolerant =>
                have hrest := (List.suffix_cons token rest).trans h
                exact scope_read .tolerant false rest hrest entities hentities
      · have hstep := @scopeItem_read mode ending items (token :: rest) h
          fun inner hinner hlt => scope_read mode true inner (hinner.trans h)
        have hlength := @resume_length token rest (scopeItem mode ending (token :: rest)).next
        have hnext := (Recorded.next_suffix _).trans
          (@scopeItem_rest_suffix mode ending (token :: rest))
        have hplace := ((resume_suffix hnext).trans hnext).trans h
        rw [(scope_extends nested hbrace (scope_goes_on hbrace hentities)).outcome] at hentities
        obtain ⟨others, hothers, rfl⟩ := outcome_map_ok hentities
        refine List.forall_mem_append.mpr ⟨?_, scope_read mode nested _ hplace others hothers⟩
        unfold Recorded.found
        cases houtcome : (scopeItem mode ending (token :: rest)).outcome with
        | error error => simp
        | ok found => exact hstep found houtcome
termination_by tokens.length
decreasing_by
  all_goals simp only [List.length_cons] at *
  all_goals omega

-- Every class of a header has been read as a class declaration at one of the tokens.
theorem parse_classRead {text : List Char} {parsed : Parsed} (h : parse mode text = .ok parsed)
    {entity : Entity} (hentity : entity ∈ parsed.tree.entities) {head : ClassHead}
    {members : List Member} (hclass : entity.HasClass head members) :
    ClassRead mode (scan text).ending (scan text).items head members := by
  have hread := @scope_read (scan text).ending _ mode false _ (List.suffix_refl (scan text).items)
  cases houtcome : (scope mode (scan text).ending false (scan text).items).outcome with
  | error error =>
      rw [parse_of_error houtcome] at h
      cases h
  | ok entities =>
      rw [parse_of_ok houtcome] at h
      cases h
      exact hread entities houtcome entity hentity head members hclass

end Scopes

end Header

end Reflection
