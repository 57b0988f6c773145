import Reflection.Proofs.Header.Alongside.Annotations

namespace Reflection.Header

variable {border : Border} {ending finish : Token} {tokens others : List Token}

theorem Border.Beside.skipOne {kind : TokenKind} (h : border.Beside tokens others)
    (hsemicolon : kind ≠ .semicolon) (hbrace : kind ≠ .rBrace) :
    border.Beside (skipOne kind tokens) (skipOne kind others) := by
  unfold Header.skipOne
  rw [← h.kindAt_eq]
  split
  · next hkind => exact h.tail (hkind ▸ hsemicolon) (hkind ▸ hbrace)
  · exact h

theorem expect_beside {kind : TokenKind} (h : border.Beside tokens others)
    (hsemicolon : kind ≠ .semicolon) (hbrace : kind ≠ .rBrace) :
    Read.Beside border id (expect ending kind tokens) (expect finish kind others) := by
  unfold expect
  rw [← h.kindAt_eq]
  split
  · next hkind => exact .done rfl (h.tail (hkind ▸ hsemicolon) (hkind ▸ hbrace))
  · exact .failed (unexpected_unplaced kind h) h

section Operators

theorem operatorSymbol_tracks {tokens others : List Token} (h : border.Beside tokens others) :
    (operatorSymbol ending tokens).Tracks border id (operatorSymbol finish others) := by
  match tokens with
  | [] =>
      rw [h.eq_nil, operatorSymbol, operatorSymbol]
      exact .inr (.failed rfl (h.eq_nil ▸ h))
  | token :: rest =>
      obtain ⟨other, after, rfl, halike, _⟩ := h.next
      rw [operatorSymbol, operatorSymbol, ← halike.kind, ← halike.text]
      cases hkind : token.kind with
      | lParen => exact .inr (.done rfl h)
      | semicolon | rBrace => exact .inr (.failed (unexpected_unplaced .lParen h) h)
      | _ =>
          refine (operatorSymbol_tracks (h.tail_of_kind hkind (by decide) (by decide))).map _ _ ?_
          rintro first _ rfl
          rfl
termination_by tokens.length

theorem operatorName_tracks (h : border.Beside tokens others) :
    (operatorName ending tokens).Tracks border id (operatorName finish others) := by
  unfold operatorName
  by_cases hopen : kindAt tokens = .lParen
  · have htail := h.tail (by rw [hopen]; decide) (by rw [hopen]; decide)
    rw [← h.kindAt_eq, ← htail.kindAt_eq]
    split
    · next hkinds =>
      exact .inr (.done rfl (htail.tail (by rw [hkinds.2]; decide) (by rw [hkinds.2]; decide)))
    · exact (operatorSymbol_tracks h).map _ _ fun _ _ hvalue => by rw [id, id] at hvalue; rw [hvalue]
  · rw [if_neg fun hkinds => hopen hkinds.1,
      if_neg fun hkinds => hopen (h.kindAt_eq.trans hkinds.1)]
    exact (operatorSymbol_tracks h).map _ _ fun _ _ hvalue => by rw [id, id] at hvalue; rw [hvalue]

end Operators

section FunctionEnds

theorem skipMemberInitializers_tracks {tokens others : List Token}
    (h : border.Beside tokens others) :
    (skipMemberInitializers ending tokens).Tracks border id
      (skipMemberInitializers finish others) := by
  match tokens with
  | [] =>
      rw [h.eq_nil, skipMemberInitializers, skipMemberInitializers]
      exact .inr (.failed rfl (h.eq_nil ▸ h))
  | token :: rest =>
      obtain ⟨other, after, rfl, halike, _⟩ := h.next
      rw [skipMemberInitializers_cons, skipMemberInitializers_cons, ← halike.kind]
      cases hkind : token.kind with
      | lParen | lBrace =>
          have hrest := h.tail_of_kind hkind (by decide) (by decide)
          refine (skipGroup_follows halike h.leads hrest).tracks.bind
            (skipGroup_suffix ending token rest).length_le
            (fun _ inner => ?_) fun _ _ inner further hle _ hinner => ?_
          · have hone := skipOne_suffix .ellipsis inner
            split
            · exact (skipMemberInitializers_suffix ending _).trans ((List.tail_suffix _).trans hone)
            · exact hone
          · have hone : border.Beside (Header.skipOne .ellipsis inner)
                (Header.skipOne .ellipsis further) := hinner.skipOne (by decide) (by decide)
            have hle' := (skipOne_suffix .ellipsis inner).length_le
            rw [← hone.kindAt_eq]
            split
            · next hcomma =>
              exact skipMemberInitializers_tracks
                (hone.tail (by rw [hcomma]; decide) (by rw [hcomma]; decide))
            · exact .inr (.done rfl hone)
      | lt =>
          exact (skipAngles_follows 1 (h.tail_of_kind hkind (by decide) (by decide))).tracks.bind
            (skipAngles_suffix ending token 1 rest).length_le
            (fun _ inner => skipMemberInitializers_suffix ending inner)
            fun _ _ inner _ hle _ hinner => skipMemberInitializers_tracks hinner
      | semicolon | rBrace => exact .inr (.failed (unexpected_unplaced .lParen h) h)
      | _ => exact skipMemberInitializers_tracks (h.tail_of_kind hkind (by decide) (by decide))
termination_by tokens.length
decreasing_by
  all_goals simp only [List.length_cons, List.length_tail]; omega

theorem skipFunctionEnd_breaks {kind : TokenKind} (hends : border.ends kind) :
    border.Breaks (skipFunctionEnd ending border.tail) := by
  obtain ⟨token, rest, htail, hkind⟩ := border.tail_eq_cons hends
  rw [htail]
  refine .inr ⟨unexpected ending .semicolon (token :: rest), token :: rest, ?_, htail ▸ Nat.le_refl _⟩
  rw [skipFunctionEnd_cons, hkind]

theorem skipFunctionEnd_ends {tokens others : List Token} (h : border.Beside tokens others) :
    (skipFunctionEnd ending tokens).Ends border id (skipFunctionEnd finish others) := by
  match tokens with
  | [] =>
      rw [h.eq_nil, skipFunctionEnd, skipFunctionEnd]
      exact .beside (.failed rfl (h.eq_nil ▸ h))
  | token :: rest =>
      obtain ⟨other, after, rfl, halike, hrest⟩ := h.next
      rw [skipFunctionEnd_cons, skipFunctionEnd_cons, ← halike.kind]
      have hsuffix := fun inner => skipFunctionEnd_suffix ending inner
      cases hkind : token.kind with
      | semicolon =>
          rcases hrest with hrest | ⟨hends, rfl, rfl⟩
          · exact .beside (.done rfl hrest)
          · exact .finished hends trivial rfl
      | rBrace => exact .beside (.failed (unexpected_unplaced .semicolon h) h)
      | lBrace => exact skipBody_ends halike h.leads (h.tail_of_kind hkind (by decide) (by decide))
      | lParen | lBracket | attrOpen =>
          have hrest := h.tail_of_kind hkind (by decide) (by decide)
          exact (skipGroup_follows halike h.leads hrest).follow
            (skipGroup_suffix ending token rest).length_le
            (fun _ inner => hsuffix inner)
            (fun _ _ hends _ => .of_breaks hends (skipFunctionEnd_breaks hends))
            fun _ _ inner _ hle _ hinner => skipFunctionEnd_ends hinner
      | colon =>
          have hrest := h.tail_of_kind hkind (by decide) (by decide)
          exact (skipMemberInitializers_tracks hrest).follow hrest
            (skipMemberInitializers_suffix ending rest) (fun _ inner => hsuffix inner)
            (fun _ hends => skipFunctionEnd_breaks hends)
            fun _ _ inner _ hle _ hinner => skipFunctionEnd_ends hinner
      | lt =>
          have hrest := h.tail_of_kind hkind (by decide) (by decide)
          exact (skipAngles_follows 1 hrest).tracks.follow hrest (skipAngles_suffix ending token 1 rest)
            (fun _ inner => hsuffix inner) (fun _ hends => skipFunctionEnd_breaks hends)
            fun _ _ inner _ hle _ hinner => skipFunctionEnd_ends hinner
      | _ => exact skipFunctionEnd_ends (h.tail_of_kind hkind (by decide) (by decide))
termination_by tokens.length

end FunctionEnds

section FunctionPointers

theorem pastPointerMarks_beside {tokens others : List Token} (h : border.Beside tokens others) :
    border.Beside (pastPointerMarks tokens) (pastPointerMarks others) := by
  match tokens with
  | [] =>
      cases h with
      | nil htail hother =>
          rw [pastPointerMarks]
          exact .nil htail hother
  | token :: rest =>
      obtain ⟨other, after, rfl, halike, _⟩ := h.next
      rw [pastPointerMarks, pastPointerMarks, ← halike.kind]
      cases hkind : token.kind with
      | star | amp | colonColon =>
          exact pastPointerMarks_beside (h.tail_of_kind hkind (by decide) (by decide))
      | ident =>
          have hrest := h.tail_of_kind hkind (by decide) (by decide)
          dsimp only
          rw [← hrest.kindAt_eq]
          split
          · exact pastPointerMarks_beside hrest
          · exact h
      | _ => exact h
termination_by tokens.length

theorem functionPointer_tracks (h : border.Beside tokens others) :
    (functionPointer ending tokens).Tracks border Token.word (functionPointer finish others) := by
  have hmarks := pastPointerMarks_beside h
  unfold functionPointer
  cases hpast : pastPointerMarks tokens with
  | nil =>
      rw [hpast] at hmarks
      rw [hmarks.eq_nil]
      exact .inr (.failed rfl (hmarks.eq_nil ▸ hmarks))
  | cons name rest =>
      rw [hpast] at hmarks
      obtain ⟨other, after, hother, halike, _⟩ := hmarks.next
      rw [hother] at hmarks ⊢
      dsimp only
      rw [← halike.kind]
      split
      · next hkind =>
        have hrest := hmarks.tail_of_kind hkind (by decide) (by decide)
        refine (expect_beside hrest (by decide) (by decide)).tracks.bind
          (expect_suffix ending .rParen rest).length_le (fun _ inner => ?_)
          fun _ _ inner _ hle _ hinner => ?_
        · rw [Read.rest_map]
          exact skipParens_suffix ending inner
        · exact (skipParens_tracks hinner).map _ _ fun _ _ _ => halike.word
      · exact .inr (.failed (unexpected_unplaced .ident hmarks) hmarks)

end FunctionPointers

section Declarations

-- The same but for the place.
structure MemberContext.Alike (context other : MemberContext) : Prop where
  annotations : context.annotations.map AnnotationBlock.unplaced =
    other.annotations.map AnnotationBlock.unplaced
  access : context.access = other.access
  className : context.className = other.className

structure Seen.Alike (seen other : Seen) : Prop where
  isStatic : seen.isStatic = other.isStatic
  isDestructor : seen.isDestructor = other.isDestructor
  name : seen.name.map Token.word = other.name.map Token.word
  names : seen.names = other.names
  attributes : seen.attributes.map AnnotationBlock.unplaced =
    other.attributes.map AnnotationBlock.unplaced

inductive MembersRead.Ends (border : Border) : MembersRead → MembersRead → Prop where
  | beyond {read other : MembersRead} (h : read.rest.length < border.tail.length) :
      MembersRead.Ends border read other
  | stuck {read other : MembersRead} (hends : border.ends .rBrace)
      (herror : read.error.isSome = true) (h : read.rest.length ≤ border.tail.length) :
      MembersRead.Ends border read other
  | beside {read other : MembersRead}
      (hmembers : unplacedMembers read.members = unplacedMembers other.members)
      (herror : read.error.map ParseError.unplaced = other.error.map ParseError.unplaced)
      (hrest : border.Beside read.rest other.rest) : MembersRead.Ends border read other
  | finished {kind : TokenKind} {members others : List Member} (hends : border.ends kind)
      (hmembers : unplacedMembers members = unplacedMembers others) :
      MembersRead.Ends border ⟨members, none, border.tail⟩ ⟨others, none, border.other⟩

namespace MembersRead

variable {α γ : Type} {value : α → γ} {read other : Read α}

-- A declaration that is complete when another reading is.
theorem ends_of_read {members further : α → List Token → List Member}
    (hmembers : ∀ first second after others, value first = value second →
      unplacedMembers (members first after) = unplacedMembers (further second others))
    (h : read.Ends border value other) :
    Ends border (.after read fun first after => ⟨members first after, none, after⟩)
      (.after other fun second others => ⟨further second others, none, others⟩) := by
  cases h with
  | beyond h =>
      apply Ends.beyond
      cases read <;> exact h
  | stuck hends h => exact .stuck hends rfl h
  | finished hends _ hvalue => exact .finished hends (hmembers _ _ _ _ hvalue)
  | beside h =>
      cases h with
      | done hvalue hrest => exact .beside (hmembers _ _ _ _ hvalue) rfl hrest
      | failed herror hrest => exact .beside rfl (congrArg some herror) hrest

-- A declaration that goes on behind another reading. At the border it must not succeed.
theorem ends_after {tokens others : List Token} {next following : α → List Token → MembersRead}
    (hbeside : border.Beside tokens others) (hread : read.rest <:+ tokens)
    (hsuffix : ∀ first after, (next first after).rest <:+ after)
    (hbreaks : ∀ first, border.ends .rBrace → (next first border.tail).error.isSome = true)
    (hnext : ∀ first second after others, after.length ≤ tokens.length →
      value first = value second → border.Beside after others →
      Ends border (next first after) (following second others))
    (h : read.Tracks border value other) :
    Ends border (.after read next) (.after other following) := by
  rcases h with (hlt | ⟨hends, hle⟩) | hbeside'
  · refine .beyond (Nat.lt_of_le_of_lt ?_ hlt)
    cases read with
    | done first after => exact (hsuffix first after).length_le
    | failed error after => exact Nat.le_refl _
  · cases read with
    | failed error after => exact .stuck hends rfl hle
    | done first after =>
        have hlast := (hsuffix first after).length_le
        by_cases heq : after = border.tail
        · subst heq
          exact .stuck hends (hbreaks first hends) hlast
        · have hafter := List.suffix_of_suffix_length_le hread hbeside.tail_suffix hle
          have hlt : after.length < border.tail.length :=
            Nat.lt_of_le_of_ne hle fun hlength => heq (hafter.eq_of_length hlength)
          exact .beyond (Nat.lt_of_le_of_lt hlast hlt)
  · cases hbeside' with
    | done hvalue hrest => exact hnext _ _ _ _ hread.length_le hvalue hrest
    | failed herror hrest => exact .beside rfl (congrArg some herror) hrest

theorem Ends.cons {read other : MembersRead} {member further : Member}
    (hmember : member.unplaced = further.unplaced) (h : Ends border read other) :
    Ends border (read.cons member) (other.cons further) := by
  cases h with
  | beyond h => exact .beyond h
  | stuck hends herror h => exact .stuck hends herror h
  | finished hends hmembers =>
      refine .finished hends ?_
      rw [unplacedMembers, unplacedMembers, hmember, hmembers]
  | beside hmembers herror hrest =>
      refine .beside ?_ herror hrest
      simp only [MembersRead.cons, unplacedMembers, hmember, hmembers]

end MembersRead

variable {context other : MemberContext} {seen further : Seen}

theorem MemberContext.Alike.field (hcontext : context.Alike other) (hseen : seen.Alike further)
    {name second separator last : Token} (hname : name.word = second.word) :
    (context.field seen name separator).unplaced = (other.field further second last).unplaced := by
  simp only [MemberContext.field, Member.unplaced, FieldDecl.unplaced, List.map_append, hname,
    hseen.isStatic, hseen.attributes, hcontext.access, hcontext.annotations]

theorem method_eq_after (name : String) (kind : MethodKind) :
    context.method ending seen name kind tokens =
      .after (skipFunctionEnd ending tokens) fun _ rest =>
        ⟨[.method ⟨name, kind, seen.isStatic, context.access,
          context.annotations ++ seen.attributes, spanFrom ending context.start rest⟩], none, rest⟩ := by
  unfold MemberContext.method
  cases skipFunctionEnd ending tokens <;> rfl

theorem method_ends (hcontext : context.Alike other) (hseen : seen.Alike further) (name : String)
    (kind : MethodKind) (h : border.Beside tokens others) :
    MembersRead.Ends border (context.method ending seen name kind tokens)
      (other.method finish further name kind others) := by
  rw [method_eq_after, method_eq_after]
  refine MembersRead.ends_of_read (fun _ _ _ _ _ => ?_) (skipFunctionEnd_ends h)
  simp only [unplacedMembers, Member.unplaced, MethodDecl.unplaced, List.map_append,
    hseen.isStatic, hseen.attributes, hcontext.access, hcontext.annotations]

theorem method_breaks {kind : TokenKind} (hends : border.ends kind) (name : String)
    (method : MethodKind) :
    (context.method ending seen name method border.tail).error.isSome = true := by
  obtain ⟨token, rest, htail, hkind⟩ := border.tail_eq_cons hends
  rw [htail]
  rw [method_eq_after, skipFunctionEnd_cons, hkind]
  rfl

theorem operator_eq_after :
    context.operator ending seen tokens =
      .after (operatorName ending tokens) fun name rest =>
        context.method ending seen name .operator rest := by
  unfold MemberContext.operator
  cases operatorName ending tokens <;> rfl

theorem operator_ends (hcontext : context.Alike other) (hseen : seen.Alike further)
    (h : border.Beside tokens others) :
    MembersRead.Ends border (context.operator ending seen tokens)
      (other.operator finish further others) := by
  rw [operator_eq_after, operator_eq_after]
  refine MembersRead.ends_after h (operatorName_suffix ending tokens)
    (fun name inner => method_suffix context ending seen name .operator inner)
    (fun name hends => method_breaks hends name .operator)
    (fun first second _ _ _ hname hinner => ?_) (operatorName_tracks h)
  rw [show first = second from hname]
  exact method_ends hcontext hseen second .operator hinner

theorem ends_of_invocation {opening first : Token} (halike : Alike opening first)
    (hleads : opening.kind = .attrOpen → border.Leads tokens others)
    (h : border.Beside tokens others) :
    MembersRead.Ends border
      (match skipGroup ending opening tokens with
        | .failed error rest => .failed error rest
        | .done _ rest => ⟨[], none, skipOne .semicolon rest⟩)
      (match skipGroup finish first others with
        | .failed error rest => .failed error rest
        | .done _ rest => ⟨[], none, skipOne .semicolon rest⟩) := by
  have hbody : MembersRead.Ends border
      (.after ((skipGroup ending opening tokens).bind fun _ after =>
        .done () (skipOne .semicolon after)) fun _ rest => ⟨[], none, rest⟩)
      (.after ((skipGroup finish first others).bind fun _ after =>
        .done () (skipOne .semicolon after)) fun _ rest => ⟨[], none, rest⟩) :=
    MembersRead.ends_of_read (fun _ _ _ _ _ => rfl) (skipBody_ends halike hleads h)
  cases hread : skipGroup ending opening tokens <;>
    cases hother : skipGroup finish first others <;> rw [hread, hother] at hbody <;> exact hbody

theorem named_ends (hcontext : context.Alike other) (hseen : seen.Alike further)
    {name second opening first : Token} (hname : name.word = second.word)
    (hopening : opening.kind = .lParen)
    (h : border.Beside (opening :: tokens) (first :: others)) :
    MembersRead.Ends border (context.named ending seen name opening tokens)
      (other.named finish further second first others) := by
  obtain ⟨_, _, hnext, halike, _⟩ := h.next
  cases hnext
  unfold MemberContext.named
  rw [← hseen.isDestructor, ← hseen.names, ← hcontext.className, ← hname]
  dsimp only
  generalize (if seen.isDestructor = true then MethodKind.destructor
    else if some name.word = context.className then .constructor else .regular) = kind
  by_cases hmacro : kind = .regular ∧ seen.names = 1
  · rw [if_pos hmacro, if_pos hmacro]
    exact ends_of_invocation halike h.leads (h.tail_of_kind hopening (by decide) (by decide))
  · rw [if_neg hmacro, if_neg hmacro]
    exact method_ends hcontext hseen _ _ h

-- Either both sides have seen a name, or neither has.
theorem Seen.Alike.name_cases (h : seen.Alike further) :
    (seen.name = none ∧ further.name = none) ∨
      ∃ name second, seen.name = some name ∧ further.name = some second ∧
        name.word = second.word := by
  have hname := h.name
  cases hfirst : seen.name with
  | none =>
      rw [hfirst] at hname
      exact .inl ⟨rfl, Option.map_eq_none_iff.mp hname.symm⟩
  | some name =>
      rw [hfirst] at hname
      obtain ⟨second, hsecond, hword⟩ := Option.map_eq_some_iff.mp hname.symm
      exact .inr ⟨name, second, rfl, hsecond, hword.symm⟩

theorem memberDeclaration_breaks {kind : TokenKind} (hends : border.ends kind) :
    (memberDeclaration context ending seen border.tail).error.isSome = true := by
  obtain ⟨token, rest, htail, hkind⟩ := border.tail_eq_cons hends
  rw [htail]
  rw [memberDeclaration_cons, hkind]
  rfl

theorem specifiers_of_parens_tracks (h : border.Beside tokens others) :
    ((skipParens ending tokens).bind fun _ after => specifiers ending after).Tracks border
      (List.map AnnotationBlock.unplaced)
      ((skipParens finish others).bind fun _ after => specifiers finish after) :=
  (skipParens_tracks h).bind (skipParens_suffix ending tokens).length_le
    (fun _ inner => specifiers_suffix ending inner)
    fun _ _ _ _ _ _ hinner => specifiers_tracks hinner

theorem memberDeclaration_ends {seen further : Seen} {tokens others : List Token}
    (hcontext : context.Alike other) (hseen : seen.Alike further)
    (h : border.Beside tokens others) :
    MembersRead.Ends border (memberDeclaration context ending seen tokens)
      (memberDeclaration other finish further others) := by
  match tokens with
  | [] =>
      rw [h.eq_nil, memberDeclaration, memberDeclaration]
      exact .beside rfl rfl (h.eq_nil ▸ h)
  | token :: rest =>
      obtain ⟨second, after, rfl, halike, hrest⟩ := h.next
      rw [memberDeclaration_cons, memberDeclaration_cons, ← halike.kind]
      have hsuffix := fun seen inner => memberDeclaration_suffix context ending seen inner
      cases hkind : token.kind with
      | staticKw =>
          exact memberDeclaration_ends hcontext { hseen with isStatic := rfl }
            (h.tail_of_kind hkind (by decide) (by decide))
      | tilde =>
          exact memberDeclaration_ends hcontext { hseen with isDestructor := rfl }
            (h.tail_of_kind hkind (by decide) (by decide))
      | ident =>
          refine memberDeclaration_ends hcontext
            { hseen with name := ?_, names := congrArg (· + 1) hseen.names }
            (h.tail_of_kind hkind (by decide) (by decide))
          exact congrArg some halike.word
      | attrOpen =>
          have hrest := h.tail_of_kind hkind (by decide) (by decide)
          refine MembersRead.ends_after hrest (attributeBlock_suffix ending token [] rest)
            (fun _ inner => hsuffix _ inner) (fun _ hends => memberDeclaration_breaks hends)
            (fun _ _ inner _ hle hvalue hinner => ?_)
            (attributeBlock_tracks [] (h.leads hkind) hrest)
          refine memberDeclaration_ends hcontext { hseen with attributes := ?_ } hinner
          simp only [List.map_append, hseen.attributes, List.map_cons, hvalue, List.map_nil]
      | alignasKw =>
          have hrest := h.tail_of_kind hkind (by decide) (by decide)
          exact MembersRead.ends_after hrest
            (Read.suffix_bind (skipParens_suffix ending rest)
              fun _ after => specifiers_suffix ending after)
            (fun _ inner => hsuffix _ inner) (fun _ hends => memberDeclaration_breaks hends)
            (fun _ _ inner _ hle _ hinner => memberDeclaration_ends hcontext hseen hinner)
            (specifiers_of_parens_tracks hrest)
      | lt =>
          have hrest := h.tail_of_kind hkind (by decide) (by decide)
          exact MembersRead.ends_after hrest (skipAngles_suffix ending token 1 rest)
            (fun _ inner => hsuffix _ inner) (fun _ hends => memberDeclaration_breaks hends)
            (fun _ _ inner _ hle _ hinner => memberDeclaration_ends hcontext hseen hinner)
            (skipAngles_follows 1 hrest).tracks
      | operatorKw =>
          exact operator_ends hcontext hseen (h.tail_of_kind hkind (by decide) (by decide))
      | lParen =>
          have hrest := h.tail_of_kind hkind (by decide) (by decide)
          dsimp only
          rw [← hrest.kindAt_eq]
          split
          · refine MembersRead.ends_after hrest (functionPointer_suffix ending rest)
              (fun _ inner => hsuffix _ inner) (fun _ hends => memberDeclaration_breaks hends)
              (fun _ _ inner _ hle hvalue hinner => ?_) (functionPointer_tracks hrest)
            exact memberDeclaration_ends hcontext { hseen with name := congrArg some hvalue } hinner
          · rcases hseen.name_cases with ⟨hfirst, hsecond⟩ | ⟨name, last, hfirst, hsecond, hname⟩ <;>
              rw [hfirst, hsecond]
            · exact .beside rfl (congrArg some (unexpected_unplaced .ident h)) h
            · exact named_ends hcontext hseen hname hkind h
      | eq | colon =>
          have hrest := h.tail_of_kind hkind (by decide) (by decide)
          exact MembersRead.ends_after hrest (skipInitializer_suffix ending rest)
            (fun _ inner => hsuffix _ inner) (fun _ hends => memberDeclaration_breaks hends)
            (fun _ _ inner _ hle _ hinner => memberDeclaration_ends hcontext hseen hinner)
            (skipInitializer_tracks hrest)
      | lBrace | lBracket =>
          have hrest := h.tail_of_kind hkind (by decide) (by decide)
          exact MembersRead.ends_after hrest (skipGroup_suffix ending token rest)
            (fun _ inner => hsuffix _ inner) (fun _ hends => memberDeclaration_breaks hends)
            (fun _ _ inner _ hle _ hinner => memberDeclaration_ends hcontext hseen hinner)
            (skipGroup_follows halike h.leads hrest).tracks
      | comma =>
          rcases hseen.name_cases with ⟨hfirst, hsecond⟩ | ⟨name, last, hfirst, hsecond, hname⟩ <;>
            rw [hfirst, hsecond]
          · exact .beside rfl (congrArg some (unexpected_unplaced .ident h)) h
          · refine MembersRead.Ends.cons (hcontext.field hseen hname) ?_
            exact memberDeclaration_ends hcontext { hseen with name := rfl, attributes := rfl }
              (h.tail_of_kind hkind (by decide) (by decide))
      | semicolon =>
          rcases hseen.name_cases with ⟨hfirst, hsecond⟩ | ⟨name, last, hfirst, hsecond, hname⟩ <;>
            rw [hfirst, hsecond]
          · exact .beside rfl (congrArg some (unexpected_unplaced .ident h)) h
          · have hfield : (context.field seen name token).unplaced =
                (other.field further last second).unplaced := hcontext.field hseen hname
            have hmembers : unplacedMembers [context.field seen name token] =
                unplacedMembers [other.field further last second] := by
              rw [unplacedMembers, unplacedMembers, hfield]
              rfl
            rcases hrest with hrest | ⟨hends, rfl, rfl⟩
            · exact .beside hmembers rfl hrest
            · exact .finished hends hmembers
      | rBrace => exact .beside rfl (congrArg some (unexpected_unplaced .semicolon h)) h
      | _ =>
          exact memberDeclaration_ends hcontext hseen
            (h.tail_of_kind hkind (by decide) (by decide))
termination_by tokens.length

end Declarations

end Reflection.Header
