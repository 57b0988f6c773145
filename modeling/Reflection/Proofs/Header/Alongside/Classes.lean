import Reflection.Proofs.Header.Alongside.Recorded

namespace Reflection.Header

variable {bound more larger further : Nat} {border : Border} {ending finish : Token}
  {tokens others : List Token}

section Plain

theorem Member.annotate_unplaced (block : AnnotationBlock) (member : Member) :
    (Member.annotate block member).unplaced = Member.annotate block.unplaced member.unplaced := by
  cases member <;>
    simp [Member.annotate, Member.unplaced, FieldDecl.unplaced, MethodDecl.unplaced]

-- Members with the trailing comment behind them.
def MembersRead.annotated (read : MembersRead) : MembersRead :=
  match read.error with
  | some _ => read
  | none =>
    match trailingDoc read.rest with
    | (some doc, rest) => ⟨read.members.map (Member.annotate doc), none, rest⟩
    | (none, _) => read

theorem plainMembers_eq_annotated (context : MemberContext) :
    plainMembers context ending tokens =
      (memberDeclaration context ending Seen.nothing tokens).annotated := rfl

theorem MembersRead.annotated_suffix (read : MembersRead) : read.annotated.rest <:+ read.rest := by
  have hdoc := trailingDoc_suffix read.rest
  unfold annotated
  split
  · exact List.suffix_refl _
  · split
    · next h =>
      rw [h] at hdoc
      exact hdoc
    · exact List.suffix_refl _

theorem MembersRead.annotated_none {read : MembersRead}
    (h : read.error.isSome = true ∨ (trailingDoc read.rest).1 = none) : read.annotated = read := by
  unfold annotated
  split
  · rfl
  · next hnone =>
    split
    · next hdoc =>
      rw [hnone, hdoc] at h
      simp at h
    · rfl

theorem unplacedMembers_annotate (block : AnnotationBlock) (members : List Member) :
    unplacedMembers (members.map (Member.annotate block)) =
      (unplacedMembers members).map (Member.annotate block.unplaced) := by
  simp only [unplacedMembers_eq_map, List.map_map, Function.comp_def, Member.annotate_unplaced]

theorem Border.tail_doc {kind : TokenKind} (hends : border.ends kind) :
    (trailingDoc border.tail).1 = none := by
  have hkind := border.tail_kind kind hends
  cases htail : border.tail with
  | nil => rfl
  | cons token rest =>
      rw [htail, kindAt_cons] at hkind
      simp [trailingDoc, isTrailingDoc, hkind]

theorem MembersRead.Ends.annotated {read other : MembersRead} (h : Ends border read other) :
    Ends border read.annotated other.annotated := by
  cases h with
  | beyond h => exact .beyond (Nat.lt_of_le_of_lt read.annotated_suffix.length_le h)
  | stuck hends herror h =>
      rw [annotated_none (.inl herror)]
      exact .stuck hends herror h
  | finished hends hmembers =>
      rw [annotated_none (.inr (Border.tail_doc hends)), annotated_none (.inr border.other_doc)]
      exact .finished hends hmembers
  | beside hmembers herror hrest =>
      cases hread : read.error with
      | some error =>
          rw [hread] at herror
          have hother : other.error.isSome = true := by
            cases hother : other.error with
            | none =>
                rw [hother] at herror
                cases herror
            | some _ => rfl
          rw [annotated_none (.inl (by rw [hread]; rfl)), annotated_none (.inl hother)]
          exact .beside hmembers (hread ▸ herror) hrest
      | none =>
          rw [hread] at herror
          have hother : other.error = none := Option.map_eq_none_iff.mp herror.symm
          obtain ⟨hdoc, hafter⟩ := trailingDoc_beside hrest
          cases hfirst : (trailingDoc read.rest).1 with
          | none =>
              rw [hfirst] at hdoc
              rw [annotated_none (.inr hfirst),
                annotated_none (.inr (Option.map_eq_none_iff.mp hdoc.symm))]
              exact .beside hmembers (by rw [hread, hother]) hrest
          | some block =>
              rw [hfirst] at hdoc
              obtain ⟨second, hsecond, hblock⟩ := Option.map_eq_some_iff.mp hdoc.symm
              unfold MembersRead.annotated
              rw [hread, hother]
              dsimp only
              rw [show trailingDoc read.rest = (some block, (trailingDoc read.rest).2) from
                  Prod.ext hfirst rfl,
                show trailingDoc other.rest = (some second, (trailingDoc other.rest).2) from
                  Prod.ext hsecond rfl]
              refine .beside ?_ rfl hafter
              rw [unplacedMembers_annotate, unplacedMembers_annotate, hmembers, hblock]

theorem plainMembers_ends {context other : MemberContext} (hcontext : context.Alike other)
    (h : border.Beside tokens others) :
    MembersRead.Ends border (plainMembers context ending tokens)
      (plainMembers other finish others) := by
  rw [plainMembers_eq_annotated, plainMembers_eq_annotated]
  exact (memberDeclaration_ends hcontext ⟨rfl, rfl, rfl, rfl, rfl⟩ h).annotated

end Plain

section Steps

namespace MemberStep

-- What holds of one declaration of a class body.
inductive Ends (border : Border) (step : MemberStep bound) (other : MemberStep more) : Prop where
  | beyond (h : step.rest.length < border.tail.length)
  | stuck (hends : border.ends .rBrace) (herrors : step.errors ≠ [])
  | beside (hmembers : step.members.map Member.unplaced = other.members.map Member.unplaced)
      (haccess : step.access = other.access)
      (herror : step.error.map ParseError.unplaced = other.error.map ParseError.unplaced)
      (hrecovered : step.recovered.map ParseError.unplaced =
        other.recovered.map ParseError.unplaced)
      (hrest : border.Beside step.rest other.rest)
  | finished {kind : TokenKind} (hends : border.ends kind)
      (hmembers : step.members.map Member.unplaced = other.members.map Member.unplaced)
      (haccess : step.access = other.access) (herror : step.error = none)
      (hother : other.error = none)
      (hrecovered : step.recovered.map ParseError.unplaced =
        other.recovered.map ParseError.unplaced)
      (hrest : step.rest = border.tail) (hmore : other.rest = border.other)

variable {step : MemberStep bound} {other : MemberStep more}

theorem Ends.within (hle : bound ≤ larger) (hmore : more ≤ further) (h : step.Ends border other) :
    (step.within hle).Ends border (other.within hmore) := by
  cases h with
  | beyond h => exact .beyond h
  | stuck hends herrors => exact .stuck hends herrors
  | beside hmembers haccess herror hrecovered hrest =>
      exact .beside hmembers haccess herror hrecovered hrest
  | finished hends hmembers haccess herror hother hrecovered hrest hmore =>
      exact .finished hends hmembers haccess herror hother hrecovered hrest hmore

theorem ends_ofSkip {γ : Type} {value : Unit → γ} {kinds : TokenKind → Prop} {access : Access}
    {read other : Read Unit} (hle : read.rest.length ≤ bound) (hmore : other.rest.length ≤ more)
    (h : read.Follows border kinds value other) :
    (ofSkip access read hle).Ends border (ofSkip access other hmore) := by
  cases h with
  | beyond h => exact .beyond h
  | stuck hends _ => exact .stuck hends (by simp [errors, ofSkip])
  | finished hends _ _ => exact .finished hends rfl rfl rfl rfl rfl rfl rfl
  | beside h =>
      cases h with
      | done _ hrest => exact .beside rfl rfl rfl rfl hrest
      | failed herror hrest => exact .beside rfl rfl (congrArg some herror) rfl hrest

theorem ends_ofMembers {access : Access} {read other : MembersRead}
    (hle : read.rest.length ≤ bound) (hmore : other.rest.length ≤ more)
    (h : MembersRead.Ends border read other) :
    (ofMembers access read hle).Ends border (ofMembers access other hmore) := by
  cases h with
  | beyond h => exact .beyond h
  | stuck hends herror _ =>
      obtain ⟨error, herror⟩ := Option.isSome_iff_exists.mp herror
      exact .stuck hends (by simp [errors, ofMembers, herror])
  | finished hends hmembers =>
      rw [unplacedMembers_eq_map, unplacedMembers_eq_map] at hmembers
      exact .finished hends hmembers rfl rfl rfl rfl rfl rfl
  | beside hmembers herror hrest =>
      rw [unplacedMembers_eq_map, unplacedMembers_eq_map] at hmembers
      exact .beside hmembers rfl herror rfl hrest

theorem errors_ofRecorded (access : Access) (read : Recorded (List Member) bound) :
    (ofRecorded access read).errors = read.errors := by
  unfold ofRecorded errors Recorded.errors
  cases read.outcome
  · rfl
  · exact List.append_nil _

theorem ends_ofRecorded {access : Access} {read : Recorded (List Member) bound}
    {other : Recorded (List Member) more}
    (h : read.Ends border (List.map Member.unplaced) other) :
    (ofRecorded access read).Ends border (ofRecorded access other) := by
  cases h with
  | beyond h => exact .beyond (by rwa [rest_ofRecorded])
  | stuck hends herrors => exact .stuck hends (by rwa [errors_ofRecorded])
  | finished hends hread hother hvalue hrecovered hrest hmore =>
      unfold ofRecorded
      rw [hread, hother]
      exact .finished hends hvalue rfl rfl rfl hrecovered hrest hmore
  | beside h =>
      have houtcome := h.outcome
      unfold ofRecorded
      cases hread : read.outcome with
      | ok first =>
          cases hother : other.outcome with
          | error second =>
              rw [hread, hother] at houtcome
              cases houtcome
          | ok second =>
              rw [hread, hother] at houtcome
              exact .beside (Except.ok.inj houtcome) rfl rfl h.recovered h.rest
      | error first =>
          cases hother : other.outcome with
          | ok second =>
              rw [hread, hother] at houtcome
              cases houtcome
          | error second =>
              rw [hread, hother] at houtcome
              exact .beside rfl rfl (congrArg some (Except.error.inj houtcome)) h.recovered h.rest

theorem Ends.after {α γ : Type} {value : α → γ} {access : Access} {read other : Read α}
    {next following : α → (tokens : List Token) → MemberStep tokens.length}
    (hle : read.rest.length ≤ bound) (hmore : other.rest.length ≤ more)
    (hnext : ∀ first second after others, after.length ≤ bound → value first = value second →
      border.Beside after others → (next first after).Ends border (following second others))
    (h : read.Follows border (fun _ => False) value other) :
    (MemberStep.after read access hle next).Ends border
      (MemberStep.after other access hmore following) := by
  cases h with
  | beyond h =>
      refine .beyond (Nat.lt_of_le_of_lt ?_ h)
      cases read with
      | done first after => exact (next first after).rest_le
      | failed error after => exact Nat.le_refl _
  | stuck hends _ => exact .stuck hends (by simp [MemberStep.after, MemberStep.failed, errors])
  | finished _ hkind _ => exact hkind.elim
  | beside h =>
      cases h with
      | done hvalue hrest => exact (hnext _ _ _ _ hle hvalue hrest).within hle hmore
      | failed herror hrest => exact .beside rfl rfl (congrArg some herror) rfl hrest

theorem Ends.stepped (h : step.Ends border other) :
    border.Stepped Member.unplaced (step.access = other.access) step.members other.members
      step.errors other.errors step.next other.next := by
  cases h with
  | beyond h =>
      refine .beyond (Nat.lt_of_le_of_lt ?_ h)
      unfold MemberStep.next
      split
      · exact (recover_suffix 0 step.rest).length_le
      · exact Nat.le_refl _
  | stuck hends herrors => exact .stuck hends herrors
  | finished hends hmembers haccess herror hother hrecovered hrest hmore =>
      unfold errors MemberStep.next
      rw [herror, hother, hrest, hmore]
      refine .meets haccess hmembers ?_ (.finished hends)
      rw [List.map_append, List.map_append, hrecovered]
  | beside hmembers haccess herror hrecovered hrest =>
      unfold errors MemberStep.next
      cases hfirst : step.error with
      | none =>
          rw [hfirst] at herror
          rw [Option.map_eq_none_iff.mp herror.symm]
          refine .meets haccess hmembers ?_ (.beside hrest)
          rw [List.map_append, List.map_append, hrecovered]
      | some error =>
          rw [hfirst] at herror
          obtain ⟨second, hsecond, hplaced⟩ := Option.map_eq_some_iff.mp herror.symm
          rw [hsecond]
          rcases recover_meets 0 hrest with (hlt | ⟨hends, _⟩) | hmeets
          · exact .beyond hlt
          · exact .stuck hends (by simp)
          · refine .meets haccess hmembers ?_ hmeets
            simp only [List.map_append, hrecovered, Option.toList_some, List.map_cons, hplaced]

end MemberStep

end Steps

section Forms

theorem Border.Beside.starts (h : border.Beside tokens others)
    (hkey : isTypeKey (kindAt tokens) = true) :
    startsTypeDeclaration tokens = startsTypeDeclaration others := by
  cases h with
  | nil _ _ => cases hkey
  | cons _ hstarts _ _ => exact hstarts hkey
  | last _ hends =>
      rcases border.ends_kind _ hends with hkind | hkind <;> rw [kindAt_cons, hkind] at hkey <;>
        cases hkey

theorem Border.Beside.memberForm (h : border.Beside tokens others) :
    memberForm tokens = memberForm others := by
  have hstarts := h.starts
  unfold Header.memberForm
  rw [← h.kindAt_eq]
  cases hkind : kindAt tokens with
  | classKw | structKw | unionKw | enumKw =>
      rw [hkind] at hstarts
      dsimp only
      rw [hstarts rfl]
  | _ => rfl

end Forms

section Bodies

theorem expect_behind {kind : TokenKind} {rest : List Token} (heof : kind ≠ .eof)
    (h : expect ending kind tokens = .done () rest) :
    ∃ token, token.kind = kind ∧ tokens = token :: rest := by
  unfold expect at h
  split at h
  · next hkind =>
    cases tokens with
    | nil => exact absurd hkind.symm heof
    | cons token after =>
        cases h
        exact ⟨token, hkind, rfl⟩
  · cases h

theorem enterBody_behind {rest : List Token} (h : enterBody ending tokens = .done () rest) :
    ∃ brace, brace.kind = .lBrace ∧ brace :: rest <:+ tokens := by
  obtain ⟨_, after, hread, hexpect⟩ := Read.bind_eq_done h
  obtain ⟨brace, hkind, rfl⟩ := expect_behind (by decide) hexpect
  refine ⟨brace, hkind, ?_⟩
  split at hread
  · exact (Read.suffix_of_done (skipBaseClause_suffix ending _) hread).trans (List.tail_suffix tokens)
  · cases hread
    exact List.suffix_refl _

-- A class with a body goes on behind the brace that opens it.
theorem classOpening_behind {opening : ClassOpening} {rest : List Token}
    (h : classOpening ending tokens = .done opening rest) (hbody : opening.hasBody = true) :
    ∃ brace, brace.kind = .lBrace ∧ brace :: rest <:+ tokens := by
  rw [classOpening_eq_bind] at h
  obtain ⟨attributes, after, hspecifiers, h⟩ := Read.bind_eq_done h
  obtain ⟨_, inner, harguments, h⟩ := Read.bind_eq_done h
  have hinner := Read.suffix_of_done (skipTemplateArguments_suffix ending _) harguments
  have hafter := Read.suffix_of_done (specifiers_suffix ending tokens) hspecifiers
  unfold classHeadEnd at h
  split at h
  · cases h
    cases hbody
  · obtain ⟨_, henter, _⟩ := Read.map_eq_done h
    obtain ⟨brace, hkind, hsuffix⟩ := enterBody_behind henter
    exact ⟨brace, hkind, hsuffix.trans ((skipFinal_suffix inner).trans
      (hinner.trans ((className_suffix after).trans hafter)))⟩

theorem Border.Beside.no_body_at_tail {kind : TokenKind} {opening : ClassOpening}
    (h : border.Beside tokens others) (hends : border.ends kind)
    (hread : classOpening ending tokens = .done opening border.tail) :
    opening.hasBody = false := by
  cases hbody : opening.hasBody with
  | false => rfl
  | true =>
      obtain ⟨brace, hbrace, hsuffix⟩ := classOpening_behind hread hbody
      rcases border.ends_kind _ (h.ends_behind hends hsuffix) with hkind | hkind <;>
        exact absurd (hbrace.symm.trans hkind) (by decide)

-- What is kept of a type with the names of its declarators.
abbrev typeAs : Entity × List Token → Entity × List String :=
  Prod.map Entity.unplaced (List.map Token.word)

theorem classEnd_ends {entity further : List Token → Entity}
    (hentity : ∀ rest others, (entity rest).unplaced = (further others).unplaced)
    (h : border.Beside tokens others) :
    (classEnd ending entity tokens).Ends border typeAs (classEnd finish further others) := by
  unfold classEnd
  exact (typeDeclarators_ends rfl h).map _ _ fun _ _ hnames => Prod.ext (hentity _ _) hnames

-- A body that comes to the border takes the brace behind it.
theorem classBody_tail {kind : TokenKind} (hends : border.ends kind) (mode : ErrorMode)
    (name : Option String) (access : Access) :
    (classBody mode ending name access border.tail).rest.length < border.tail.length := by
  obtain ⟨brace, rest, htail, hkind⟩ := border.tail_eq_cons hends
  rw [htail, classBody_rBrace mode ending name access hkind]
  exact Nat.lt_succ_self _

-- The bodies of a class on both sides.
abbrev BodiesAlong (border : Border) (ending finish : Token) (name : Option String)
    (access : Access) (tokens others : List Token) : Prop :=
  Recorded.Along border Member.unplaced
    (fun access => classBody .tolerant ending name access border.tail)
    (fun access => classBody .tolerant finish name access border.other)
    (classBody .tolerant ending name access tokens)
    (classBody .tolerant finish name access others)

-- In the lemmas on one declaration, this says that classes read from fewer tokens go together.
def ClassesEnd (border : Border) (ending finish : Token) (bound : Nat) : Prop :=
  ∀ annotations further isTemplate keyword other rest others, rest.length < bound →
    annotations.map AnnotationBlock.unplaced = further.map AnnotationBlock.unplaced →
    keyword.kind = other.kind → border.Beside rest others →
    (classDeclaration .tolerant ending annotations isTemplate keyword rest).Ends border typeAs
      (classDeclaration .tolerant finish further isTemplate other others)

theorem ClassesEnd.mono {smaller bound : Nat} (hle : smaller ≤ bound)
    (h : ClassesEnd border ending finish bound) : ClassesEnd border ending finish smaller :=
  fun annotations further isTemplate keyword other rest others hlt =>
    h annotations further isTemplate keyword other rest others (Nat.lt_of_lt_of_le hlt hle)

variable {annotations blocks : List AnnotationBlock} {keyword other : Token}

theorem classFrom_ends {opening second : ClassOpening} (isTemplate : Bool)
    (hannotations : annotations.map AnnotationBlock.unplaced =
      blocks.map AnnotationBlock.unplaced) (hkey : keyword.kind = other.kind)
    (hopening : opening.unplaced = second.unplaced)
    (hbody : opening.hasBody = true → ∀ name access,
      BodiesAlong border ending finish name access tokens others)
    (hbeside : opening.hasBody = false → border.Beside tokens others ∨
      ∃ kind, border.ends kind ∧ tokens = border.tail ∧ others = border.other) :
    (classFrom .tolerant ending annotations isTemplate keyword opening tokens).Ends border typeAs
      (classFrom .tolerant finish blocks isTemplate other second others) := by
  obtain ⟨attributes, name, hasBody⟩ := opening
  obtain ⟨more, _, _⟩ := second
  obtain ⟨hattributes, rfl, rfl⟩ := ClassOpening.mk.inj hopening
  have hclass : classKey keyword = classKey other := by rw [classKey, classKey, hkey]
  have hentity : ∀ isDefinition members others rest after,
      members.map Member.unplaced = others.map Member.unplaced →
      (Entity.classDecl (ClassOpening.head ⟨attributes, name, hasBody⟩ ending annotations isTemplate
          keyword isDefinition rest) members).unplaced =
        (Entity.classDecl (ClassOpening.head ⟨more, name, hasBody⟩ finish blocks isTemplate other
          isDefinition after) others).unplaced := by
    intro isDefinition members others rest after hmembers
    simp only [ClassOpening.head, Entity.unplaced, ClassHead.unplaced, unplacedMembers_eq_map,
      List.map_append, hannotations, hattributes, hmembers, hclass]
  simp only [classFrom, hclass]
  by_cases hhasBody : hasBody = true
  · rw [if_pos hhasBody, if_pos hhasBody]
    cases hbody hhasBody name.getLast? (classKey other).defaultAccess with
    | beyond h => exact .beyond (Nat.lt_of_le_of_lt Recorded.rest_andThen_le h)
    | stuck hends herrors => exact .stuck hends (Recorded.errors_andThen herrors)
    | closed hends hrest =>
        refine .of_breaks hends hrest fun members => ?_
        rcases @typeDeclarators_breaks border ending _ hends none with hlt | ⟨error, rest, hread, hle⟩
        · exact .inl (by rwa [ClassOpening.finish, classEnd, Read.rest_map])
        · exact .inr ⟨error, rest, by rw [ClassOpening.finish, classEnd, hread]; rfl, hle⟩
    | reached access hends _ _ hread _ =>
        refine .beyond (Nat.lt_of_le_of_lt Recorded.rest_andThen_le ?_)
        rw [hread.rest]
        exact classBody_tail hends .tolerant _ access
    | beside h =>
        exact h.andThen fun members others hmembers =>
          classEnd_ends (fun _ _ => hentity true members others _ _ hmembers) h.rest
  · have hforward := Bool.eq_false_iff.mpr hhasBody
    rw [if_neg hhasBody, if_neg hhasBody]
    rcases hbeside hforward with h | ⟨kind, hends, rfl, rfl⟩
    · exact .beside ⟨congrArg Except.ok (Prod.ext (hentity false [] [] _ _ rfl) rfl), rfl, h⟩
    · exact .finished hends rfl rfl (Prod.ext (hentity false [] [] _ _ rfl) rfl) rfl rfl rfl

theorem templateFrom_ends (hannotations : annotations.map AnnotationBlock.unplaced =
      blocks.map AnnotationBlock.unplaced) (hclass : ClassesEnd border ending finish tokens.length)
    (h : border.Beside tokens others) :
    (templateFrom .tolerant ending annotations tokens).Ends border (Option.map Entity.unplaced)
      (templateFrom .tolerant finish blocks others) := by
  cases tokens with
  | nil =>
      obtain rfl := h.eq_nil
      exact .beside ⟨rfl, rfl, h⟩
  | cons keyword rest =>
      obtain ⟨other, after, rfl, halike, _⟩ := h.next
      have hstarts : (isClassKey keyword.kind && startsTypeDeclaration (keyword :: rest)) =
          (isClassKey other.kind && startsTypeDeclaration (other :: after)) := by
        rw [← halike.kind]
        cases hkey : isClassKey keyword.kind with
        | false => rfl
        | true => rw [h.starts (by rw [isTypeKey, kindAt_cons, hkey]; rfl)]
      rw [templateFrom, templateFrom, ← hstarts]
      split
      · next hkeys =>
        have hkey := (Bool.and_eq_true _ _ ▸ hkeys).1
        have hrest : border.Beside rest after :=
          h.tail (fun hkind => by rw [kindAt_cons] at hkind; rw [hkind] at hkey; cases hkey)
            fun hkind => by rw [kindAt_cons] at hkind; rw [hkind] at hkey; cases hkey
        refine Recorded.Ends.within _ _ (Recorded.Ends.map _ _ ?_
          (hclass annotations blocks true keyword other rest after (Nat.lt_succ_self _)
            hannotations halike.kind hrest))
        intro first second hvalue
        exact congrArg some (Prod.mk.inj hvalue).1
      · exact (Recorded.ends_ofRead _ _ (skipDeclaration_ends .nothing h)).map _ _ fun _ _ _ => rfl

theorem templateDeclaration_ends (hannotations : annotations.map AnnotationBlock.unplaced =
      blocks.map AnnotationBlock.unplaced) (hclass : ClassesEnd border ending finish tokens.length)
    (h : border.Beside tokens others) :
    (templateDeclaration .tolerant ending annotations tokens).Ends border
      (Option.map Entity.unplaced) (templateDeclaration .tolerant finish blocks others) := by
  have harguments : (skipTemplateArguments ending tokens).Follows border (fun _ => False) id
      (skipTemplateArguments finish others) := skipTemplateArguments_follows h
  rw [templateDeclaration_eq_after, templateDeclaration_eq_after]
  exact .after _ _ (fun _ _ _ _ hkind => hkind.elim)
    (fun _ _ after _ hle _ hrest => templateFrom_ends hannotations (hclass.mono hle) hrest)
    harguments

theorem typeMembers_unplaced {access : Access} {entity second : Entity} {names more : List Token}
    (hentity : entity.unplaced = second.unplaced)
    (hnames : names.map Token.word = more.map Token.word) :
    (typeMembers access entity names).map Member.unplaced =
      (typeMembers access second more).map Member.unplaced := by
  have hfields : ∀ names : List Token,
      (names.map (declaratorField access)).map Member.unplaced =
        (names.map Token.word).map fun word => .field ⟨word, false, access, [], .none⟩ := by
    intro names
    simp only [List.map_map, Function.comp_def, declaratorField, Member.unplaced,
      FieldDecl.unplaced, List.map_nil]
  rw [typeMembers, typeMembers, List.map_cons, List.map_cons, hfields, hfields, hnames,
    Member.unplaced, Member.unplaced, hentity]

-- A declaration other than a lone `;` goes on behind its first token.
theorem Border.Beside.tail_of_form {token other : Token} {rest after : List Token}
    (h : border.Beside (token :: rest) (other :: after))
    (hempty : Header.memberForm (token :: rest) ≠ .empty)
    (hclosing : Header.memberForm (token :: rest) ≠ .closing) : border.Beside rest after := by
  refine h.tail (fun hkind => hempty ?_) fun hkind => hclosing ?_
  · rw [Header.memberForm, hkind]
  · rw [Header.memberForm, hkind]

theorem member_ends (name : Option String) (access : Access)
    (hannotations : annotations.map AnnotationBlock.unplaced =
      blocks.map AnnotationBlock.unplaced) (hclass : ClassesEnd border ending finish tokens.length)
    (h : border.Beside tokens others) :
    (member .tolerant ending name access annotations tokens).Ends border
      (member .tolerant finish name access blocks others) := by
  cases tokens with
  | nil =>
      rw [h.eq_nil, member, member]
      exact .beside rfl rfl rfl rfl (h.eq_nil ▸ h)
  | cons token rest =>
      obtain ⟨other, after, rfl, halike, hrest⟩ := h.next
      have htail := h.tail_of_form
      rw [member_cons, member_cons, ← h.memberForm, ← halike.kind]
      cases hform : Header.memberForm (token :: rest) with
      | closing => exact .beside rfl rfl rfl rfl h
      | empty =>
          rcases hrest with hrest | ⟨hends, rfl, rfl⟩
          · exact .beside rfl rfl rfl rfl hrest
          · exact .finished hends rfl rfl rfl rfl rfl rfl rfl
      | skipped => exact MemberStep.ends_ofSkip _ _ (skipDeclaration_ends .nothing h)
      | plain => exact MemberStep.ends_ofMembers _ _ (plainMembers_ends ⟨hannotations, rfl, rfl⟩ h)
      | label =>
          rw [hform] at htail
          have hcolon : (expect ending .colon rest).Ends border id (expect finish .colon after) :=
            .beside (expect_beside (htail (by decide) (by decide)) (by decide) (by decide))
          exact MemberStep.ends_ofSkip _ _ hcolon
      | classType =>
          rw [hform] at htail
          refine MemberStep.ends_ofRecorded (Recorded.Ends.within _ _ (Recorded.Ends.map _ _ ?_
            (hclass annotations blocks false token other rest after (Nat.lt_succ_self _)
              hannotations halike.kind (htail (by decide) (by decide)))))
          intro first second hvalue
          exact typeMembers_unplaced (Prod.mk.inj hvalue).1 (Prod.mk.inj hvalue).2
      | enumType =>
          rw [hform] at htail
          refine MemberStep.ends_ofRecorded (Recorded.Ends.within _ _ (Recorded.Ends.map _ _ ?_
            (Recorded.ends_ofRead _ _
              (enumDeclaration_ends hannotations (htail (by decide) (by decide))))))
          intro first second hvalue
          exact typeMembers_unplaced (congrArg Entity.enumDecl (Prod.mk.inj hvalue).1)
            (Prod.mk.inj hvalue).2
      | template =>
          rw [hform] at htail
          refine MemberStep.ends_ofRecorded (Recorded.Ends.within _ _ (Recorded.Ends.map _ _ ?_
            (templateDeclaration_ends hannotations (hclass.mono (Nat.le_succ _))
              (htail (by decide) (by decide)))))
          intro first second hvalue
          cases first with
          | none =>
              cases second with
              | none => rfl
              | some _ => cases hvalue
          | some entity =>
              cases second with
              | none => cases hvalue
              | some second =>
                  exact congrArg (fun entity => [Member.type entity]) (Option.some.inj hvalue)

theorem memberStep_ends (name : Option String) (access : Access)
    (hclass : ClassesEnd border ending finish tokens.length) (h : border.Beside tokens others) :
    (memberStep .tolerant ending name access tokens).Ends border
      (memberStep .tolerant finish name access others) := by
  rw [memberStep_eq_after, memberStep_eq_after]
  exact .after _ _ (fun _ _ _ _ hle hannotations hrest =>
    member_ends name access hannotations (hclass.mono hle) hrest) (leadingAnnotations_follows h)

-- By recursion on the tokens: what is left behind a declaration is shorter.
theorem classBody_along (name : Option String) (access : Access) (tokens others : List Token)
    (hclass : ClassesEnd border ending finish tokens.length) (h : border.Beside tokens others) :
    BodiesAlong border ending finish name access tokens others := by
  match tokens with
  | [] =>
      obtain rfl := h.eq_nil
      unfold BodiesAlong
      rw [classBody, classBody]
      exact .beside ⟨rfl, rfl, h⟩
  | token :: rest =>
      obtain ⟨other, after, rfl, halike, hrest⟩ := h.next
      by_cases hbrace : token.kind = .rBrace
      · unfold BodiesAlong
        rw [classBody_rBrace _ _ _ _ hbrace, classBody_rBrace _ _ _ _ (halike.kind ▸ hbrace)]
        rcases hrest with hrest | ⟨hends, rfl, rfl⟩
        · exact .beside ⟨rfl, rfl, hrest⟩
        · exact .closed (hbrace ▸ hends) rfl
      · refine .of_stepped h (List.cons_ne_nil token rest)
          (classBody_extends name access hbrace (.inl rfl))
          (classBody_extends name access (halike.kind ▸ hbrace) (.inl rfl))
          (fun haccess hmeets => ?_) (memberStep_ends name access hclass h).stepped
        have hlt := @resume_length token rest
          (memberStep .tolerant ending name access (token :: rest)).next
        rw [← haccess]
        generalize resume (token :: rest) _ = left at hmeets hlt ⊢
        generalize resume (other :: after) _ = right at hmeets ⊢
        cases hmeets with
        | finished hends => exact .here _ hends
        | beside hleft =>
            exact classBody_along name _ left right
              (hclass.mono (Nat.le_trans hlt (Nat.le_succ _))) hleft
termination_by tokens.length
decreasing_by
  simp only [List.length_cons]
  omega

-- A body is read from no more tokens than its class, and the classes in it from fewer.
theorem classDeclaration_ends (annotations blocks : List AnnotationBlock) (isTemplate : Bool)
    (keyword other : Token) (tokens others : List Token)
    (hannotations : annotations.map AnnotationBlock.unplaced =
      blocks.map AnnotationBlock.unplaced) (hkey : keyword.kind = other.kind)
    (h : border.Beside tokens others) :
    (classDeclaration .tolerant ending annotations isTemplate keyword tokens).Ends border typeAs
      (classDeclaration .tolerant finish blocks isTemplate other others) := by
  rw [classDeclaration_eq_after, classDeclaration_eq_after]
  refine .after _ _ (fun kind first second hends _ hread hopening => ?_)
    (fun first second rest after hle hopening hrest => ?_) (classOpening_ends h)
  · have hforward := h.no_body_at_tail hends hread
    refine classFrom_ends isTemplate hannotations hkey hopening (fun hbody => ?_)
      fun _ => .inr ⟨kind, hends, rfl, rfl⟩
    rw [hforward] at hbody
    cases hbody
  · refine classFrom_ends isTemplate hannotations hkey hopening (fun _ name access => ?_)
      fun _ => .inl hrest
    refine classBody_along name access rest after ?_ hrest
    intro annotations blocks isTemplate keyword other inner last hlt hannotations hkey hinner
    exact classDeclaration_ends annotations blocks isTemplate keyword other inner last hannotations
      hkey hinner
termination_by tokens.length

theorem classesEnd (bound : Nat) : ClassesEnd border ending finish bound :=
  fun annotations blocks isTemplate keyword other rest others _ =>
    classDeclaration_ends annotations blocks isTemplate keyword other rest others

end Bodies

end Reflection.Header
