import Reflection.Proofs.Header.Readers

namespace Reflection.Header

variable {ending : Token}

-- An error at a place between where a reader starts and where it stops.
def ErrorAt (ending : Token) (tokens rest : List Token) (error : ParseError) : Prop :=
  ∃ place, place <:+ tokens ∧ rest <:+ place ∧ error.span = spanAt ending place

-- What a reader does with its tokens: it stops at a tail of them, and its error is on the way.
def Read.Stays {α : Type} (ending : Token) (tokens : List Token) : Read α → Prop
  | .done _ rest => rest <:+ tokens
  | .failed error rest => ErrorAt ending tokens rest error

namespace Read.Stays

variable {α β : Type} {tokens larger : List Token} {read : Read α}

theorem of_suffix {rest : List Token} (value : α) (h : rest <:+ tokens) :
    (Read.done value rest).Stays ending tokens := h

-- An error at the next token, or at the end of the text.
theorem of_span {error : ParseError} {rest : List Token} (h : rest <:+ tokens)
    (hspan : error.span = spanAt ending rest) :
    (Read.failed error rest : Read α).Stays ending tokens :=
  ⟨rest, h, List.suffix_refl rest, hspan⟩

theorem of_unexpected {expected : TokenKind} {rest : List Token} (h : rest <:+ tokens) :
    (Read.failed (unexpected ending expected rest) rest : Read α).Stays ending tokens := by
  apply of_span h
  cases rest <;> rfl

-- An error about the token that opened what is not closed.
theorem of_opening {opening : Token} {inner rest : List Token} {error : ParseError}
    (h : opening :: inner <:+ tokens) (hrest : rest <:+ opening :: inner)
    (hspan : error.span = opening.span) :
    (Read.failed error rest : Read α).Stays ending tokens :=
  ⟨opening :: inner, h, hrest, hspan⟩

theorem mono (h : read.Stays ending tokens) (hle : tokens <:+ larger) :
    read.Stays ending larger := by
  cases read with
  | done value rest => exact List.IsSuffix.trans h hle
  | failed error rest =>
      obtain ⟨place, hplace, hrest, hspan⟩ := h
      exact ⟨place, hplace.trans hle, hrest, hspan⟩

theorem map (f : α → β) (h : read.Stays ending tokens) : (read.map f).Stays ending tokens := by
  cases read <;> exact h

-- One reading after another, where the first one is known to leave a tail of `inner`.
theorem bind {inner : List Token} {next : α → List Token → Read β}
    (h : read.Stays ending tokens) (hrest : read.rest <:+ inner)
    (hnext : ∀ value after, after <:+ inner → (next value after).Stays ending tokens) :
    (read.bind next).Stays ending tokens := by
  cases read with
  | done value after => exact hnext value after hrest
  | failed error after => exact h

theorem suffix (h : read.Stays ending tokens) : read.rest <:+ tokens := by
  cases read with
  | done value rest => exact h
  | failed error rest =>
      obtain ⟨place, hplace, hrest, _⟩ := h
      exact hrest.trans hplace

-- What comes behind has no places but those that are left.
theorem andThen {next : α → List Token → Read β} (h : read.Stays ending tokens)
    (hnext : ∀ value after, (next value after).Stays ending after) :
    (read.bind next).Stays ending tokens :=
  h.bind h.suffix fun value after hafter => (hnext value after).mono hafter

end Read.Stays

section Skipping

variable {opening token : Token} {tokens inner : List Token}

theorem attributeBlock_stays (text : List Char) (hopening : opening :: inner <:+ tokens)
    {rest : List Token} (h : rest <:+ inner) :
    (attributeBlock ending opening text rest).Stays ending tokens := by
  induction rest generalizing text with
  | nil => exact .of_opening hopening List.nil_suffix rfl
  | cons token rest ih =>
      have hrest : rest <:+ inner := (List.suffix_cons token rest).trans h
      rw [attributeBlock]
      split
      · apply Read.Stays.of_suffix
        exact ((List.tail_suffix rest).trans hrest).trans
          ((List.suffix_cons opening inner).trans hopening)
      · exact ih _ hrest

-- By well-founded recursion: behind an attribute block, fewer tokens are left.
theorem nestedGroup_stays (hopening : opening :: inner <:+ tokens) (depth : Nat)
    {rest : List Token} (h : rest <:+ inner) :
    (nestedGroup ending opening depth rest).Stays ending tokens := by
  match rest with
  | [] =>
      rw [nestedGroup]
      exact .of_opening hopening List.nil_suffix rfl
  | token :: rest =>
      have hinner : inner <:+ tokens := (List.suffix_cons opening inner).trans hopening
      have hrest : rest <:+ inner := (List.suffix_cons token rest).trans h
      rw [nestedGroup_cons]
      split
      · refine Read.Stays.bind (attributeBlock_stays [] (h.trans hinner) (List.suffix_refl rest))
          (attributeBlock_suffix ending token [] rest) fun _ after hafter => ?_
        have := hafter.length_le
        exact nestedGroup_stays hopening depth (hafter.trans hrest)
      split
      · exact nestedGroup_stays hopening (depth + 1) hrest
      split
      · split
        · exact .of_suffix () (hrest.trans hinner)
        · exact nestedGroup_stays hopening (depth - 1) hrest
      · exact nestedGroup_stays hopening depth hrest
termination_by rest.length
decreasing_by all_goals simp only [List.length_cons]; omega

theorem skipGroup_stays (h : token :: inner <:+ tokens) :
    (skipGroup ending token inner).Stays ending tokens := by
  unfold skipGroup
  split
  · exact (attributeBlock_stays [] h (List.suffix_refl inner)).map _
  · exact nestedGroup_stays h 1 (List.suffix_refl inner)

theorem skipParens_stays (tokens : List Token) :
    (skipParens ending tokens).Stays ending tokens := by
  cases tokens with
  | nil => exact .of_suffix () (List.suffix_refl [])
  | cons token rest =>
      rw [skipParens]
      split
      · exact skipGroup_stays (List.suffix_refl _)
      · exact .of_suffix () (List.suffix_refl _)

theorem skipAngles_stays (hopening : opening :: inner <:+ tokens) (depth : Nat)
    {rest : List Token} (h : rest <:+ inner) :
    (skipAngles ending opening depth rest).Stays ending tokens := by
  match rest with
  | [] =>
      rw [skipAngles]
      exact .of_opening hopening List.nil_suffix rfl
  | token :: rest =>
      have hinner : inner <:+ tokens := (List.suffix_cons opening inner).trans hopening
      have hrest : rest <:+ inner := (List.suffix_cons token rest).trans h
      have hfailed := h.trans (List.suffix_cons opening inner)
      rw [skipAngles_cons]
      split
      · exact skipAngles_stays hopening (depth + 1) hrest
      · split
        · exact .of_suffix () (hrest.trans hinner)
        · exact skipAngles_stays hopening (depth - 1) hrest
      · exact .of_opening hopening hfailed rfl
      · exact .of_opening hopening hfailed rfl
      · split
        · refine Read.Stays.bind (skipGroup_stays (h.trans hinner))
            (skipGroup_suffix ending token rest) fun _ after hafter => ?_
          have := hafter.length_le
          exact skipAngles_stays hopening depth (hafter.trans hrest)
        · exact skipAngles_stays hopening depth hrest
termination_by rest.length
decreasing_by all_goals simp only [List.length_cons]; omega

-- The group, or the template arguments, that start with the next token.
theorem skipGroup_bind {α : Type} {rest : List Token} {next : List Token → Read α}
    (hnext : ∀ after, after <:+ rest → (next after).Stays ending after) :
    ((skipGroup ending token rest).bind fun _ after => next after).Stays ending (token :: rest) :=
  (skipGroup_stays (List.suffix_refl _)).bind (skipGroup_suffix ending token rest)
    fun _ after hafter => (hnext after hafter).mono (hafter.trans (List.suffix_cons token rest))

theorem skipAngles_bind {α : Type} {rest : List Token} {next : List Token → Read α}
    (hnext : ∀ after, after <:+ rest → (next after).Stays ending after) :
    ((skipAngles ending token 1 rest).bind fun _ after => next after).Stays ending
      (token :: rest) :=
  (skipAngles_stays (List.suffix_refl _) 1 (List.suffix_refl rest)).bind
    (skipAngles_suffix ending token 1 rest)
    fun _ after hafter => (hnext after hafter).mono (hafter.trans (List.suffix_cons token rest))

theorem skipInitializer_stays (tokens : List Token) :
    (skipInitializer ending tokens).Stays ending tokens := by
  match tokens with
  | [] =>
      rw [skipInitializer]
      exact .of_suffix () (List.suffix_refl [])
  | token :: rest =>
      rw [skipInitializer_cons]
      split
      · exact .of_suffix () (List.suffix_refl _)
      · exact .of_suffix () (List.suffix_refl _)
      · exact .of_suffix () (List.suffix_refl _)
      · split
        · refine skipGroup_bind fun after hafter => ?_
          have := hafter.length_le
          exact skipInitializer_stays after
        · exact (skipInitializer_stays rest).mono (List.suffix_cons token rest)
termination_by tokens.length
decreasing_by all_goals simp only [List.length_cons]; omega

theorem skipDeclaration_stays (passed : Passed) (tokens : List Token) :
    (skipDeclaration ending passed tokens).Stays ending tokens := by
  match tokens with
  | [] =>
      rw [skipDeclaration]
      exact .of_unexpected (List.suffix_refl [])
  | token :: rest =>
      have hrest : rest <:+ token :: rest := List.suffix_cons token rest
      rw [skipDeclaration_cons]
      split
      · exact .of_suffix () hrest
      · exact .of_unexpected (List.suffix_refl _)
      · exact (skipDeclaration_stays _ rest).mono hrest
      · refine skipGroup_bind fun after hafter => ?_
        have := hafter.length_le
        exact skipDeclaration_stays _ after
      · refine skipGroup_bind fun after hafter => ?_
        have := hafter.length_le
        split
        · exact .of_suffix () (skipOne_suffix .semicolon after)
        · exact skipDeclaration_stays _ after
      · split
        · refine skipGroup_bind fun after hafter => ?_
          have := hafter.length_le
          exact skipDeclaration_stays _ after
        · exact (skipDeclaration_stays _ rest).mono hrest
termination_by tokens.length
decreasing_by all_goals simp only [List.length_cons]; omega

end Skipping

section Parts

variable {token : Token} {rest : List Token}

theorem leadingAnnotations_stays (tokens : List Token) :
    (leadingAnnotations ending tokens).Stays ending tokens := by
  match tokens with
  | [] =>
      rw [leadingAnnotations]
      exact .of_suffix [] (List.suffix_refl [])
  | token :: rest =>
      have hrest : rest <:+ token :: rest := List.suffix_cons token rest
      rw [leadingAnnotations_cons]
      split
      · exact (leadingAnnotations_stays rest).mono hrest
      split
      · have hdocs := rest.dropWhile_suffix isLeadingDoc
        have := hdocs.length_le
        exact ((leadingAnnotations_stays _).mono (hdocs.trans hrest)).map _
      split
      · have hblock := @attributeBlock_stays ending token _ rest [] (List.suffix_refl _) rest
          (List.suffix_refl rest)
        refine hblock.bind (attributeBlock_suffix ending token [] rest) fun block after hafter => ?_
        have := hafter.length_le
        exact ((leadingAnnotations_stays after).mono (hafter.trans hrest)).map _
      · exact .of_suffix [] (List.suffix_refl _)
termination_by tokens.length
decreasing_by all_goals simp only [List.length_cons]; omega

theorem specifiers_stays (tokens : List Token) :
    (specifiers ending tokens).Stays ending tokens := by
  match tokens with
  | [] =>
      rw [specifiers]
      exact .of_suffix [] (List.suffix_refl [])
  | token :: rest =>
      have hrest : rest <:+ token :: rest := List.suffix_cons token rest
      rw [specifiers_cons]
      split
      · have hblock := @attributeBlock_stays ending token _ rest [] (List.suffix_refl _) rest
          (List.suffix_refl rest)
        refine hblock.bind (attributeBlock_suffix ending token [] rest) fun block after hafter => ?_
        have := hafter.length_le
        exact ((specifiers_stays after).mono (hafter.trans hrest)).map _
      · refine Read.Stays.bind ((skipParens_stays rest).mono hrest)
          (skipParens_suffix ending rest) fun _ after hafter => ?_
        have := hafter.length_le
        exact (specifiers_stays after).mono (hafter.trans hrest)
      · exact .of_suffix [] (List.suffix_refl _)
termination_by tokens.length
decreasing_by all_goals simp only [List.length_cons]; omega

theorem expect_stays (kind : TokenKind) (tokens : List Token) :
    (expect ending kind tokens).Stays ending tokens := by
  unfold expect
  split
  · exact .of_suffix () (List.tail_suffix tokens)
  · exact .of_unexpected (List.suffix_refl tokens)

theorem skipMemberInitializers_stays (tokens : List Token) :
    (skipMemberInitializers ending tokens).Stays ending tokens := by
  match tokens with
  | [] =>
      rw [skipMemberInitializers]
      exact .of_unexpected (List.suffix_refl [])
  | token :: rest =>
      rw [skipMemberInitializers_cons]
      split
      · refine skipGroup_bind fun after hafter => ?_
        have hnext := skipOne_suffix .ellipsis after
        have := hafter.length_le
        have := hnext.length_le
        split
        · exact (skipMemberInitializers_stays _).mono ((List.tail_suffix _).trans hnext)
        · exact .of_suffix () hnext
      · refine skipGroup_bind fun after hafter => ?_
        have hnext := skipOne_suffix .ellipsis after
        have := hafter.length_le
        have := hnext.length_le
        split
        · exact (skipMemberInitializers_stays _).mono ((List.tail_suffix _).trans hnext)
        · exact .of_suffix () hnext
      · refine skipAngles_bind fun after hafter => ?_
        have := hafter.length_le
        exact skipMemberInitializers_stays after
      · exact .of_unexpected (List.suffix_refl _)
      · exact .of_unexpected (List.suffix_refl _)
      · exact (skipMemberInitializers_stays rest).mono (List.suffix_cons token rest)
termination_by tokens.length
decreasing_by all_goals simp only [List.length_cons, List.length_tail]; omega

theorem skipFunctionEnd_stays (tokens : List Token) :
    (skipFunctionEnd ending tokens).Stays ending tokens := by
  match tokens with
  | [] =>
      rw [skipFunctionEnd]
      exact .of_unexpected (List.suffix_refl [])
  | token :: rest =>
      have hrest : rest <:+ token :: rest := List.suffix_cons token rest
      rw [skipFunctionEnd_cons]
      split
      · exact .of_suffix () hrest
      · exact skipGroup_bind fun after _ => .of_suffix () (skipOne_suffix .semicolon after)
      · refine Read.Stays.bind ((skipMemberInitializers_stays rest).mono hrest)
          (skipMemberInitializers_suffix ending rest) fun _ after hafter => ?_
        have := hafter.length_le
        exact (skipFunctionEnd_stays after).mono (hafter.trans hrest)
      · refine skipGroup_bind fun after hafter => ?_
        have := hafter.length_le
        exact skipFunctionEnd_stays after
      · refine skipGroup_bind fun after hafter => ?_
        have := hafter.length_le
        exact skipFunctionEnd_stays after
      · refine skipGroup_bind fun after hafter => ?_
        have := hafter.length_le
        exact skipFunctionEnd_stays after
      · refine skipAngles_bind fun after hafter => ?_
        have := hafter.length_le
        exact skipFunctionEnd_stays after
      · exact .of_unexpected (List.suffix_refl _)
      · exact (skipFunctionEnd_stays rest).mono hrest
termination_by tokens.length
decreasing_by all_goals simp only [List.length_cons]; omega

theorem skipBaseClause_stays (tokens : List Token) :
    (skipBaseClause ending tokens).Stays ending tokens := by
  match tokens with
  | [] =>
      rw [skipBaseClause]
      exact .of_unexpected (List.suffix_refl [])
  | token :: rest =>
      rw [skipBaseClause_cons]
      split
      · exact .of_suffix () (List.suffix_refl _)
      · exact .of_unexpected (List.suffix_refl _)
      · refine skipAngles_bind fun after hafter => ?_
        have := hafter.length_le
        exact skipBaseClause_stays after
      · refine skipGroup_bind fun after hafter => ?_
        have := hafter.length_le
        exact skipBaseClause_stays after
      · refine skipGroup_bind fun after hafter => ?_
        have := hafter.length_le
        exact skipBaseClause_stays after
      · refine skipGroup_bind fun after hafter => ?_
        have := hafter.length_le
        exact skipBaseClause_stays after
      · exact (skipBaseClause_stays rest).mono (List.suffix_cons token rest)
termination_by tokens.length
decreasing_by all_goals simp only [List.length_cons]; omega

theorem typeDeclarators_stays (name : Option Token) (tokens : List Token) :
    (typeDeclarators ending name tokens).Stays ending tokens := by
  match tokens with
  | [] =>
      rw [typeDeclarators]
      exact .of_unexpected (List.suffix_refl [])
  | token :: rest =>
      have hrest : rest <:+ token :: rest := List.suffix_cons token rest
      have hinitializer : ((skipInitializer ending rest).bind fun _ after =>
          typeDeclarators ending name after).Stays ending (token :: rest) := by
        refine Read.Stays.bind ((skipInitializer_stays rest).mono hrest)
          (skipInitializer_suffix ending rest) fun _ after hafter => ?_
        have := hafter.length_le
        exact (typeDeclarators_stays name after).mono (hafter.trans hrest)
      rw [typeDeclarators_cons]
      split
      · exact .of_suffix _ hrest
      · exact ((typeDeclarators_stays none rest).mono hrest).map _
      · exact .of_unexpected (List.suffix_refl _)
      · exact (typeDeclarators_stays _ rest).mono hrest
      · exact hinitializer
      · exact hinitializer
      · split
        · refine skipGroup_bind fun after hafter => ?_
          have := hafter.length_le
          exact typeDeclarators_stays name after
        · exact (typeDeclarators_stays name rest).mono hrest
termination_by tokens.length
decreasing_by all_goals simp only [List.length_cons]; omega

theorem operatorName_stays (tokens : List Token) :
    (operatorName ending tokens).Stays ending tokens := by
  have hsymbol (tokens : List Token) : (operatorSymbol ending tokens).Stays ending tokens := by
    induction tokens with
    | nil =>
        rw [operatorSymbol]
        exact .of_unexpected (List.suffix_refl [])
    | cons token rest ih =>
        have hrest := ih.mono (List.suffix_cons token rest)
        rw [operatorSymbol]
        split
        · exact .of_suffix _ (List.suffix_refl _)
        · exact .of_unexpected (List.suffix_refl _)
        · exact .of_unexpected (List.suffix_refl _)
        · exact hrest.map _
        · exact hrest.map _
  unfold operatorName
  split
  · exact .of_suffix _ ((List.tail_suffix _).trans (List.tail_suffix _))
  · exact (hsymbol tokens).map _

theorem functionPointer_stays (tokens : List Token) :
    (functionPointer ending tokens).Stays ending tokens := by
  have hmarks := pastPointerMarks_suffix tokens
  unfold functionPointer
  split
  · exact .of_unexpected List.nil_suffix
  · next name rest hname =>
    rw [hname] at hmarks
    split
    · refine Read.Stays.mono ?_ ((List.suffix_cons name rest).trans hmarks)
      exact (expect_stays .rParen rest).andThen fun _ after => (skipParens_stays after).map _
    · exact .of_unexpected hmarks

theorem trailingDoc_trans {tokens : List Token} (h : rest <:+ tokens) :
    (trailingDoc rest).2 <:+ tokens := (trailingDoc_suffix rest).trans h

end Parts

-- The members of a declaration are read in the same way, and those in front of an error are kept.
structure MembersRead.Stays (ending : Token) (tokens : List Token) (read : MembersRead) : Prop where
  rest : read.rest <:+ tokens
  error : ∀ error, read.error = some error → ErrorAt ending tokens read.rest error

section Members

variable {tokens larger inner : List Token} {read : MembersRead}

namespace MembersRead.Stays

theorem mono (h : read.Stays ending tokens) (hle : tokens <:+ larger) :
    read.Stays ending larger := by
  refine ⟨h.rest.trans hle, fun error herror => ?_⟩
  obtain ⟨place, hplace, hrest, hspan⟩ := h.error error herror
  exact ⟨place, hplace.trans hle, hrest, hspan⟩

theorem of_members {rest : List Token} (members : List Member) (h : rest <:+ tokens) :
    MembersRead.Stays ending tokens ⟨members, none, rest⟩ :=
  ⟨h, fun _ hsome => by cases hsome⟩

theorem of_failed {error : ParseError} {rest : List Token} (h : rest <:+ tokens)
    (herror : ErrorAt ending tokens rest error) :
    (MembersRead.failed error rest).Stays ending tokens :=
  ⟨h, fun _ hsome => Option.some.inj hsome ▸ herror⟩

theorem of_unexpected {expected : TokenKind} :
    (MembersRead.failed (unexpected ending expected tokens) tokens).Stays ending tokens := by
  refine of_failed (List.suffix_refl tokens)
    ⟨tokens, List.suffix_refl _, List.suffix_refl _, ?_⟩
  cases tokens <;> rfl

theorem cons (member : Member) (h : read.Stays ending tokens) :
    (read.cons member).Stays ending tokens := ⟨h.rest, h.error⟩

theorem after {α : Type} {first : Read α} {next : α → List Token → MembersRead}
    (h : first.Stays ending tokens) (hrest : first.rest <:+ inner)
    (hnext : ∀ value after, after <:+ inner → (next value after).Stays ending tokens) :
    (MembersRead.after first next).Stays ending tokens := by
  cases first with
  | done value after => exact hnext value after hrest
  | failed error after => exact of_failed h.suffix h

end MembersRead.Stays

theorem method_stays (context : MemberContext) (seen : Seen) (name : String) (kind : MethodKind)
    (tokens : List Token) : (context.method ending seen name kind tokens).Stays ending tokens := by
  have hend := @skipFunctionEnd_stays ending tokens
  unfold MemberContext.method
  split
  · next error rest hread =>
    rw [hread] at hend
    exact .of_failed hend.suffix hend
  · next rest hread =>
    rw [hread] at hend
    exact .of_members _ hend

theorem named_stays (context : MemberContext) (seen : Seen) (name opening : Token)
    (tokens : List Token) :
    (context.named ending seen name opening tokens).Stays ending (opening :: tokens) := by
  have hgroup := @skipGroup_stays ending opening _ tokens (List.suffix_refl _)
  unfold MemberContext.named
  dsimp only
  generalize (if seen.isDestructor = true then MethodKind.destructor
    else if some name.word = context.className then .constructor else .regular) = kind
  split
  · split
    · next error rest hread =>
      rw [hread] at hgroup
      exact .of_failed hgroup.suffix hgroup
    · next rest hread =>
      rw [hread] at hgroup
      exact .of_members _ ((skipOne_suffix .semicolon rest).trans hgroup)
  · exact method_stays context seen _ _ _

theorem operator_stays (context : MemberContext) (seen : Seen) (tokens : List Token) :
    (context.operator ending seen tokens).Stays ending tokens := by
  have hname := @operatorName_stays ending tokens
  unfold MemberContext.operator
  split
  · next error rest hread =>
    rw [hread] at hname
    exact .of_failed hname.suffix hname
  · next name rest hread =>
    rw [hread] at hname
    exact (method_stays context seen _ _ rest).mono hname

theorem memberDeclaration_stays (context : MemberContext) (seen : Seen) (tokens : List Token) :
    (memberDeclaration context ending seen tokens).Stays ending tokens := by
  match tokens with
  | [] =>
      rw [memberDeclaration]
      exact .of_unexpected
  | token :: rest =>
      have hrest : rest <:+ token :: rest := List.suffix_cons token rest
      have hplain (seen : Seen) :
          (memberDeclaration context ending seen rest).Stays ending (token :: rest) :=
        (memberDeclaration_stays context seen rest).mono hrest
      have hbehind {α : Type} {first : Read α} (seen : α → Seen)
          (hfirst : first.Stays ending (token :: rest)) (hsuffix : first.rest <:+ rest) :
          (MembersRead.after first fun value after =>
            memberDeclaration context ending (seen value) after).Stays ending (token :: rest) := by
        refine .after hfirst hsuffix fun value after hafter => ?_
        have := hafter.length_le
        exact (memberDeclaration_stays context (seen value) after).mono (hafter.trans hrest)
      have hgroup := hbehind (fun _ => seen) (skipGroup_stays (List.suffix_refl (token :: rest)))
        (skipGroup_suffix ending token rest)
      have hinitializer := hbehind (fun _ => seen) ((skipInitializer_stays rest).mono hrest)
        (skipInitializer_suffix ending rest)
      rw [memberDeclaration_cons]
      split
      · exact hplain _
      · exact hplain _
      · exact hplain _
      · exact hbehind (fun block => { seen with attributes := seen.attributes ++ [block] })
          (attributeBlock_stays [] (List.suffix_refl _) (List.suffix_refl rest))
          (attributeBlock_suffix ending token [] rest)
      · have halign := (@skipParens_stays ending rest).andThen
          fun _ after => @specifiers_stays ending after
        exact hbehind (fun _ => seen) (halign.mono hrest) halign.suffix
      · exact hbehind (fun _ => seen)
          (skipAngles_stays (List.suffix_refl _) 1 (List.suffix_refl rest))
          (skipAngles_suffix ending token 1 rest)
      · exact (operator_stays context seen rest).mono hrest
      · split
        · exact hbehind (fun name => { seen with name := some name })
            ((functionPointer_stays rest).mono hrest) (functionPointer_suffix ending rest)
        · split
          · exact .of_unexpected
          · exact named_stays context seen _ token rest
      · exact hinitializer
      · exact hinitializer
      · exact hgroup
      · exact hgroup
      · split
        · exact .of_unexpected
        · exact .cons _ (hplain _)
      · split
        · exact .of_unexpected
        · exact .of_members _ hrest
      · exact .of_unexpected
      · exact hplain seen
termination_by tokens.length
decreasing_by all_goals simp only [List.length_cons]; omega

theorem plainMembers_stays (context : MemberContext) (tokens : List Token) :
    (plainMembers context ending tokens).Stays ending tokens := by
  have hread := @memberDeclaration_stays ending context Seen.nothing tokens
  unfold plainMembers
  dsimp only
  split
  · exact hread
  · split
    · next doc rest hdoc =>
      have hsuffix := trailingDoc_trans hread.rest
      rw [hdoc] at hsuffix
      exact .of_members _ hsuffix
    · exact hread

end Members

section Types

theorem skipTemplateArguments_stays (tokens : List Token) :
    (skipTemplateArguments ending tokens).Stays ending tokens := by
  cases tokens with
  | nil => exact .of_suffix () (List.suffix_refl [])
  | cons token rest =>
      rw [skipTemplateArguments]
      split
      · exact skipAngles_stays (List.suffix_refl _) 1 (List.suffix_refl rest)
      · exact .of_suffix () (List.suffix_refl _)

theorem enterBody_stays (tokens : List Token) :
    (enterBody ending tokens).Stays ending tokens := by
  refine Read.Stays.andThen ?_ fun _ after => expect_stays .lBrace after
  split
  · exact (skipBaseClause_stays _).mono (List.tail_suffix tokens)
  · exact .of_suffix () (List.suffix_refl tokens)

theorem classOpening_stays (tokens : List Token) :
    (classOpening ending tokens).Stays ending tokens := by
  refine (specifiers_stays tokens).andThen fun attributes rest => ?_
  refine Read.Stays.mono ?_ (className_suffix rest)
  refine (skipTemplateArguments_stays _).andThen fun _ after => ?_
  dsimp only
  split
  · exact .of_suffix _ ((List.tail_suffix _).trans (skipFinal_suffix after))
  · exact ((enterBody_stays _).mono (skipFinal_suffix after)).map _

theorem skipValue_stays (tokens : List Token) : (skipValue ending tokens).Stays ending tokens := by
  unfold skipValue
  split
  · exact (skipInitializer_stays _).mono (List.tail_suffix tokens)
  · exact .of_suffix () (List.suffix_refl tokens)

theorem enumerator_stays (annotations : List AnnotationBlock) (tokens : List Token) :
    (enumerator ending annotations tokens).Stays ending tokens := by
  cases tokens with
  | nil => exact .of_unexpected (List.suffix_refl [])
  | cons name rest =>
      rw [enumerator]
      split
      · refine Read.Stays.mono ?_ (List.suffix_cons name rest)
        refine (specifiers_stays rest).andThen fun attributes rest => ?_
        refine (skipValue_stays rest).andThen fun _ after => ?_
        exact .of_suffix _ (trailingDoc_trans (skipOne_suffix .comma after))
      · exact .of_unexpected (List.suffix_refl _)

theorem enumerators_stays (tokens : List Token) :
    (enumerators ending tokens).Stays ending tokens := by
  rw [enumerators_eq]
  refine (leadingAnnotations_stays tokens).bind (leadingAnnotations_suffix ending tokens)
    fun annotations rest hrest => ?_
  split
  · exact .of_suffix [] hrest
  · cases hread : enumerator ending annotations rest with
    | failed error after =>
        have hstays := @enumerator_stays ending annotations rest
        rw [hread] at hstays
        exact hstays.mono hrest
    | done read after =>
        have hafter := Read.suffix_of_done (enumerator_suffix ending annotations rest) hread
        have := enumerator_length hread
        have := hrest.length_le
        dsimp only [Read.bind]
        split
        · exact ((enumerators_stays after).mono (hafter.trans hrest)).map _
        · exact .of_suffix _ (hafter.trans hrest)
termination_by tokens.length
decreasing_by omega

theorem enumDeclaration_stays (annotations : List AnnotationBlock) (keyword : Token)
    (tokens : List Token) :
    (enumDeclaration ending annotations keyword tokens).Stays ending tokens := by
  have hunderlying (tokens : List Token) :
      (skipUnderlyingType ending tokens).Stays ending tokens := by
    induction tokens with
    | nil => exact .of_span (List.suffix_refl []) rfl
    | cons token rest ih =>
        rw [skipUnderlyingType]
        split
        · exact .of_suffix () (List.suffix_refl _)
        · exact .of_suffix () (List.suffix_refl _)
        · exact ih.mono (List.suffix_cons token rest)
  have hbody (describe : Bool → List EnumeratorDecl → List Token → EnumDecl)
      (tokens : List Token) : (enumBody ending describe tokens).Stays ending tokens :=
    (enumerators_stays tokens).andThen fun decls rest =>
      (expect_stays .rBrace rest).andThen fun _ after => (typeDeclarators_stays none after).map _
  have hopening : (specifiers ending (if kindAt tokens = .classKw ∨ kindAt tokens = .structKw
      then tokens.tail else tokens)).Stays ending tokens := by
    split
    · exact (specifiers_stays _).mono (List.tail_suffix tokens)
    · exact specifiers_stays tokens
  refine Read.Stays.andThen (by simpa using hopening) fun attributes rest => ?_
  dsimp only
  refine Read.Stays.andThen ?_ fun _ after => ?_
  · refine Read.Stays.mono ?_ (qualifiedName_suffix rest)
    split
    · exact (hunderlying _).mono (List.tail_suffix _)
    · exact .of_suffix () (List.suffix_refl _)
  · split
    · exact .of_suffix _ (List.tail_suffix after)
    · exact (expect_stays .lBrace after).andThen fun _ inner => hbody _ inner

theorem namespaceOpening_stays (tokens : List Token) :
    (namespaceOpening ending tokens).Stays ending tokens := by
  refine (specifiers_stays tokens).andThen fun _ rest => ?_
  refine Read.Stays.mono ?_ (qualifiedName_suffix rest)
  dsimp only
  split
  · exact (skipDeclaration_stays .nothing _).map _
  · exact (expect_stays .lBrace _).map _

theorem closeScope_stays {α : Type} (value : List Token → α) (tokens : List Token) :
    (closeScope ending value tokens).Stays ending tokens :=
  (expect_stays .rBrace tokens).andThen fun _ rest => .of_suffix _ (List.suffix_refl rest)

end Types

end Reflection.Header
