import Reflection.Proofs.Header.Readers

namespace Reflection.Header

-- From a place to a later one, over single tokens and whole groups. Tokens of some kinds are not
-- passed on their own.
inductive Passes (stops : List TokenKind) (ending : Token) : List Token → List Token → Prop where
  | here (tokens : List Token) : Passes stops ending tokens tokens
  | single {token : Token} {rest after : List Token} (hkind : token.kind ∉ stops)
      (h : Passes stops ending rest after) : Passes stops ending (token :: rest) after
  | group {token : Token} {rest after : List Token} (hopen : token.kind.isOpen = true)
      (h : Passes stops ending (skipGroup ending token rest).rest after) :
      Passes stops ending (token :: rest) after

-- The same up to the end of a declaration, perhaps with the semicolon that ends it.
inductive Ends (stops : List TokenKind) (ending : Token) (tokens rest : List Token) : Prop where
  | before (h : Passes stops ending tokens rest)
  | behind {semicolon : Token} (hkind : semicolon.kind = .semicolon)
      (h : Passes stops ending tokens (semicolon :: rest))

-- Passing braces in groups only.
abbrev Flat : Token → List Token → List Token → Prop := Passes [.semicolon, .lBrace, .rBrace]

abbrev FlatEnds : Token → List Token → List Token → Prop := Ends [.semicolon, .lBrace, .rBrace]

-- Passing braces, too.
abbrev Loose : Token → List Token → List Token → Prop := Passes [.semicolon]

abbrev LooseEnds : Token → List Token → List Token → Prop := Ends [.semicolon]

variable {stops : List TokenKind} {ending : Token}

namespace Passes

variable {α β : Type} {token : Token} {tokens rest after last : List Token} {error : ParseError}

theorem trans (h : Passes stops ending tokens rest) (hmore : Passes stops ending rest after) :
    Passes stops ending tokens after := by
  induction h with
  | here => exact hmore
  | single hkind _ ih => exact .single hkind (ih hmore)
  | group hopen _ ih => exact .group hopen (ih hmore)

theorem suffix (h : Passes stops ending tokens rest) : rest <:+ tokens := by
  induction h with
  | here => exact List.suffix_refl _
  | @single token rest after _ _ ih => exact ih.trans (List.suffix_cons token rest)
  | @group token rest after _ _ ih =>
      exact (ih.trans (skipGroup_suffix ending token rest)).trans (List.suffix_cons token rest)

theorem mono {others : List TokenKind} (hstops : others ⊆ stops)
    (h : Passes stops ending tokens rest) : Passes others ending tokens rest := by
  induction h with
  | here => exact .here _
  | single hkind _ ih => exact .single (fun hmem => hkind (hstops hmem)) ih
  | group hopen _ ih => exact .group hopen ih

theorem tail (h : kindAt tokens ∉ stops) : Passes stops ending tokens tokens.tail := by
  cases tokens with
  | nil => exact .here []
  | cons token rest => exact .single h (.here rest)

theorem group_done (hopen : token.kind.isOpen = true)
    (hskip : skipGroup ending token rest = .done () after) (h : Passes stops ending after last) :
    Passes stops ending (token :: rest) last := .group hopen (by rw [hskip]; exact h)

theorem group_failed (hopen : token.kind.isOpen = true)
    (hskip : skipGroup ending token rest = .failed error after) :
    Passes stops ending (token :: rest) after := .group hopen (by rw [hskip]; exact .here _)

theorem of_done {read : Read α} {value : α} (h : Passes stops ending tokens read.rest)
    (hread : read = .done value rest) : Passes stops ending tokens rest := by
  rwa [hread] at h

theorem of_failed {read : Read α} (h : Passes stops ending tokens read.rest)
    (hread : read = .failed error rest) : Passes stops ending tokens rest := by
  rwa [hread] at h

theorem bind {read : Read α} {next : α → List Token → Read β}
    (h : Passes stops ending tokens read.rest)
    (hnext : ∀ value after, Passes stops ending after (next value after).rest) :
    Passes stops ending tokens (read.bind next).rest := by
  cases read with
  | done value after => exact h.trans (hnext value after)
  | failed error after => exact h

end Passes

theorem Flat.loose {tokens rest : List Token} (h : Flat ending tokens rest) :
    Loose ending tokens rest := h.mono (by simp)

namespace Ends

variable {α β : Type} {token : Token} {tokens rest after last : List Token}

theorem from_ (h : Passes stops ending tokens rest) (hmore : Ends stops ending rest after) :
    Ends stops ending tokens after := by
  cases hmore with
  | before hmore => exact .before (h.trans hmore)
  | behind hkind hmore => exact .behind hkind (h.trans hmore)

theorem mono {others : List TokenKind} (hstops : others ⊆ stops)
    (h : Ends stops ending tokens rest) : Ends others ending tokens rest := by
  cases h with
  | before h => exact .before (h.mono hstops)
  | behind hkind h => exact .behind hkind (h.mono hstops)

theorem single (hkind : token.kind ∉ stops) (h : Ends stops ending rest after) :
    Ends stops ending (token :: rest) after := .from_ (.single hkind (.here rest)) h

theorem group_done (hopen : token.kind.isOpen = true)
    (hskip : skipGroup ending token rest = .done () after) (h : Ends stops ending after last) :
    Ends stops ending (token :: rest) last := .from_ (.group_done hopen hskip (.here after)) h

theorem semicolon (hkind : token.kind = .semicolon) : Ends stops ending (token :: rest) rest :=
  .behind hkind (.here _)

theorem tail (h : kindAt tokens = .semicolon) : Ends stops ending tokens tokens.tail := by
  cases tokens with
  | nil => cases h
  | cons token rest => exact .semicolon h

theorem skipOne (tokens : List Token) : Ends stops ending tokens (skipOne .semicolon tokens) := by
  unfold Header.skipOne
  split
  · next hkind => exact .tail hkind
  · exact .before (.here tokens)

theorem bind {read : Read α} {next : α → List Token → Read β}
    (h : Passes stops ending tokens read.rest)
    (hnext : ∀ value after, Ends stops ending after (next value after).rest) :
    Ends stops ending tokens (read.bind next).rest := by
  cases read with
  | done value after => exact .from_ h (hnext value after)
  | failed error after => exact .before h

end Ends

section Skipping

variable {token : Token} {rest : List Token}

theorem skipOne_flat {kind : TokenKind} (h : kind ∉ [.semicolon, .lBrace, .rBrace])
    (tokens : List Token) : Flat ending tokens (skipOne kind tokens) := by
  unfold skipOne
  split
  · next hkind => exact .tail (hkind ▸ h)
  · exact .here tokens

theorem expect_passes {kind : TokenKind} (h : kind ∉ stops) (tokens : List Token) :
    Passes stops ending tokens (expect ending kind tokens).rest := by
  unfold expect
  split
  · next hkind => exact .tail (hkind ▸ h)
  · exact .here tokens

theorem attributeBlock_flat (hopening : token.kind = .attrOpen) :
    Flat ending (token :: rest) (attributeBlock ending token [] rest).rest := by
  refine .group (by rw [hopening]; rfl) ?_
  rw [skipGroup, if_pos hopening, Read.rest_map]
  exact .here _

theorem skipParens_flat (tokens : List Token) :
    Flat ending tokens (skipParens ending tokens).rest := by
  unfold skipParens
  split
  · exact .here []
  · split
    · next hkind => exact .group (by rw [hkind]; rfl) (.here _)
    · exact .here _

theorem skipAngles_flat (opening : Token) (depth : Nat) (tokens : List Token) :
    Flat ending tokens (skipAngles ending opening depth tokens).rest := by
  fun_induction skipAngles with
    grind [Passes.here, Passes.single, Passes.group_done, Passes.group_failed, TokenKind.isOpen,
      Read.rest_done, Read.rest_failed]

theorem skipInitializer_flat (tokens : List Token) :
    Flat ending tokens (skipInitializer ending tokens).rest := by
  fun_induction skipInitializer with
    grind [Passes.here, Passes.single, Passes.group_done, Passes.group_failed, TokenKind.isOpen,
      Read.rest_done, Read.rest_failed]

theorem skipDeclaration_toEnd (passed : Passed) (tokens : List Token) :
    FlatEnds ending tokens (skipDeclaration ending passed tokens).rest := by
  fun_induction skipDeclaration with
    grind [Ends.before, Ends.single, Ends.group_done, Ends.semicolon, Ends.skipOne, Passes.here,
      Passes.group_failed, TokenKind.isOpen, Read.rest_done, Read.rest_failed]

end Skipping

section Annotations

theorem isTrailingDoc_kind {token : Token} (h : isTrailingDoc token = true) :
    token.kind = .docComment := by
  simp only [isTrailingDoc, Bool.and_eq_true, decide_eq_true_eq] at h
  exact h.1

theorem isLeadingDoc_kind {token : Token} (h : isLeadingDoc token = true) :
    token.kind = .docComment := by
  simp only [isLeadingDoc, Bool.and_eq_true, decide_eq_true_eq] at h
  exact h.1

theorem single_doc {token : Token} {rest after : List Token} (hkind : token.kind = .docComment)
    (h : Flat ending rest after) : Flat ending (token :: rest) after :=
  .single (by rw [hkind]; decide) h

theorem leadingDocs_flat (tokens : List Token) :
    Flat ending tokens (tokens.dropWhile isLeadingDoc) := by
  induction tokens with
  | nil => exact .here []
  | cons token rest ih =>
      rw [List.dropWhile_cons]
      split
      · next hdoc => exact single_doc (isLeadingDoc_kind hdoc) ih
      · exact .here _

theorem trailingDoc_flat (tokens : List Token) : Flat ending tokens (trailingDoc tokens).2 := by
  unfold trailingDoc
  split
  · split
    · next hdoc => exact single_doc (isTrailingDoc_kind hdoc) (.here _)
    · exact .here _
  · exact .here []

theorem leadingAnnotations_flat (tokens : List Token) :
    Flat ending tokens (leadingAnnotations ending tokens).rest := by
  fun_induction leadingAnnotations with
  | case1 => exact .here []
  | case2 token rest hdoc ih => exact single_doc (isTrailingDoc_kind hdoc) ih
  | case3 token rest _ hdoc _ ih =>
      rw [Read.rest_map]
      exact single_doc (isLeadingDoc_kind hdoc) ((leadingDocs_flat rest).trans ih)
  | case4 token rest _ _ hopening block after hblock _ ih =>
      rw [Read.rest_map]
      exact ((attributeBlock_flat hopening).of_done hblock).trans ih
  | case5 token rest _ _ hopening error after hblock =>
      exact (attributeBlock_flat hopening).of_failed hblock
  | case6 => exact .here _

theorem specifiers_flat (tokens : List Token) :
    Flat ending tokens (specifiers ending tokens).rest := by
  fun_induction specifiers with
    grind [Passes.here, Passes.single, Passes.trans, Passes.of_done, Passes.of_failed,
      attributeBlock_flat, skipParens_flat, Read.rest_done, Read.rest_failed, Read.rest_map]

end Annotations

section Names

theorem moreNames_flat (tokens : List Token) : Flat ending tokens (moreNames tokens).2 := by
  fun_induction moreNames with grind [Passes.here, Passes.single]

theorem qualifiedName_flat (tokens : List Token) : Flat ending tokens (qualifiedName tokens).2 := by
  unfold qualifiedName
  grind [moreNames_flat, Passes.here, Passes.single]

theorem className_flat (tokens : List Token) : Flat ending tokens (className tokens).2 := by
  unfold className
  split
  · exact .here tokens
  · exact qualifiedName_flat tokens

theorem skipTemplateArguments_flat (tokens : List Token) :
    Flat ending tokens (skipTemplateArguments ending tokens).rest := by
  unfold skipTemplateArguments
  split
  · exact .here []
  · split
    · next hkind => exact .single (by rw [hkind]; decide) (skipAngles_flat _ 1 _)
    · exact .here _

theorem skipFinal_flat (tokens : List Token) : Flat ending tokens (skipFinal tokens) := by
  cases tokens with
  | nil => exact .here []
  | cons token rest =>
      unfold skipFinal
      split
      · next hfinal =>
        have hkind : token.kind = .ident := by
          simp only [List.head?_cons, Option.any_some, isFinal, Bool.and_eq_true,
            decide_eq_true_eq] at hfinal
          exact hfinal.1
        exact .single (by rw [hkind]; decide) (.here rest)
      · exact .here _

end Names

section Members

variable (context : MemberContext) (seen : Seen)

theorem skipMemberInitializers_flat (tokens : List Token) :
    Flat ending tokens (skipMemberInitializers ending tokens).rest := by
  have hbehind (after : List Token) : Flat ending after (skipOne .ellipsis after) :=
    skipOne_flat (by decide) after
  have hcomma (after : List Token) (h : kindAt (skipOne .ellipsis after) = .comma) :
      Flat ending after (skipOne .ellipsis after).tail :=
    (hbehind after).trans (.tail (by rw [h]; decide))
  fun_induction skipMemberInitializers with
    grind [Passes.here, Passes.single, Passes.trans, Passes.of_done, Passes.of_failed,
      Passes.group_done, Passes.group_failed, skipAngles_flat, TokenKind.isOpen, Read.rest_done,
      Read.rest_failed]

theorem skipFunctionEnd_toEnd (tokens : List Token) :
    FlatEnds ending tokens (skipFunctionEnd ending tokens).rest := by
  have hbody (opening : Token) (rest : List Token) (hkind : opening.kind = .lBrace) :
      FlatEnds ending (opening :: rest) ((skipGroup ending opening rest).bind fun _ after =>
        .done () (skipOne .semicolon after)).rest :=
    .bind (.group (by rw [hkind]; rfl) (.here _)) fun _ => .skipOne
  fun_induction skipFunctionEnd with
    grind [Ends.before, Ends.single, Ends.group_done, Ends.semicolon, Ends.skipOne, Ends.from_,
      Passes.here, Passes.single, Passes.of_done, Passes.of_failed, Passes.group_failed,
      skipMemberInitializers_flat, skipAngles_flat, TokenKind.isOpen, Read.rest_done,
      Read.rest_failed]

theorem method_toEnd (name : String) (kind : MethodKind) (tokens : List Token) :
    FlatEnds ending tokens (context.method ending seen name kind tokens).rest := by
  have hread := @skipFunctionEnd_toEnd ending tokens
  unfold MemberContext.method
  split
  · next hfailed =>
    rw [hfailed] at hread
    exact hread
  · next hdone =>
    rw [hdone] at hread
    exact hread

theorem named_toEnd (name : Token) {opening : Token} (hopen : opening.kind.isOpen = true)
    (tokens : List Token) :
    FlatEnds ending (opening :: tokens) (context.named ending seen name opening tokens).rest := by
  unfold MemberContext.named
  extract_lets kind
  by_cases hmacro : kind = .regular ∧ seen.names = 1
  · rw [if_pos hmacro]
    split
    · next hskip => exact .before (.group_failed hopen hskip)
    · next hskip => exact .group_done hopen hskip (.skipOne _)
  · rw [if_neg hmacro]
    exact method_toEnd context seen _ _ _

theorem pastPointerMarks_flat (tokens : List Token) :
    Flat ending tokens (pastPointerMarks tokens) := by
  fun_induction pastPointerMarks with grind [Passes.here, Passes.single]

theorem functionPointer_flat (tokens : List Token) :
    Flat ending tokens (functionPointer ending tokens).rest := by
  have hmarks := @pastPointerMarks_flat ending tokens
  unfold functionPointer
  split
  · next hnil => exact hnil ▸ hmarks
  · next name rest hname =>
    rw [hname] at hmarks
    split
    · next hkind =>
      refine hmarks.trans (.single (by rw [hkind]; decide) ?_)
      refine .bind (expect_passes (by decide) rest) fun _ after => ?_
      rw [Read.rest_map]
      exact skipParens_flat after
    · exact hmarks

-- The name of an operator may be anything up to its parameters.
theorem operatorSymbol_loose (tokens : List Token) :
    Loose ending tokens (operatorSymbol ending tokens).rest := by
  fun_induction operatorSymbol with
    grind [Passes.here, Passes.single, Read.rest_done, Read.rest_failed, Read.rest_map]

theorem operatorName_loose (tokens : List Token) :
    Loose ending tokens (operatorName ending tokens).rest := by
  unfold operatorName
  split
  · next hparens =>
    exact (Passes.tail (by rw [hparens.1]; decide)).trans (.tail (by rw [hparens.2]; decide))
  · rw [Read.rest_map]
    exact operatorSymbol_loose tokens

-- Members are read in front of their end, or up to the name of an operator and from there.
inductive MemberEnds (ending : Token) (tokens rest : List Token) : Prop where
  | flat (h : FlatEnds ending tokens rest)
  | operator {keyword : Token} {after : List Token} (hkind : keyword.kind = .operatorKw)
      (h : Flat ending tokens (keyword :: after))
      (hrest : FlatEnds ending (operatorName ending after).rest rest)

variable {context seen}

namespace MemberEnds

variable {tokens rest after : List Token} {token : Token}

theorem from_ (h : Flat ending tokens rest) (hmore : MemberEnds ending rest after) :
    MemberEnds ending tokens after := by
  cases hmore with
  | flat hmore => exact .flat (.from_ h hmore)
  | operator hkind hname hrest => exact .operator hkind (h.trans hname) hrest

theorem failed (error : ParseError) (h : Flat ending tokens rest) :
    MemberEnds ending tokens (MembersRead.failed error rest).rest := .flat (.before h)

theorem behind {α : Type} {read : Read α} {next : α → List Token → MembersRead}
    (h : Flat ending tokens read.rest)
    (hnext : ∀ value after, after <:+ read.rest → MemberEnds ending after (next value after).rest) :
    MemberEnds ending tokens (MembersRead.after read next).rest := by
  cases read with
  | done value after => exact .from_ h (hnext value after (List.suffix_refl after))
  | failed error after => exact .flat (.before h)

end MemberEnds

theorem operator_toEnd (context : MemberContext) (seen : Seen) {keyword : Token}
    (hkind : keyword.kind = .operatorKw) (tokens : List Token) :
    MemberEnds ending (keyword :: tokens) (context.operator ending seen tokens).rest := by
  refine .operator hkind (.here _) ?_
  unfold MemberContext.operator
  split
  · next hread =>
    rw [hread]
    exact .before (.here _)
  · next hread =>
    rw [hread]
    exact method_toEnd context seen _ _ _

-- By well-founded recursion: what stands behind a group is read from fewer tokens.
theorem memberDeclaration_toEnd (context : MemberContext) (seen : Seen) (tokens : List Token) :
    MemberEnds ending tokens (memberDeclaration context ending seen tokens).rest := by
  match tokens with
  | [] =>
      rw [memberDeclaration]
      exact .failed _ (.here [])
  | token :: rest =>
      have hstays (error : ParseError) : MemberEnds ending (token :: rest)
          (MembersRead.failed error (token :: rest)).rest := .failed error (.here _)
      have hplain (seen : Seen) (hkind : token.kind ∉ [.semicolon, .lBrace, .rBrace]) :
          MemberEnds ending (token :: rest) (memberDeclaration context ending seen rest).rest :=
        .from_ (.single hkind (.here rest)) (memberDeclaration_toEnd context seen rest)
      have hbehind {α : Type} {first : Read α} (seen : α → Seen)
          (hfirst : Flat ending (token :: rest) first.rest) (hsuffix : first.rest <:+ rest) :
          MemberEnds ending (token :: rest) (MembersRead.after first fun value after =>
            memberDeclaration context ending (seen value) after).rest := by
        refine .behind hfirst fun value after hafter => ?_
        have := (hafter.trans hsuffix).length_le
        exact memberDeclaration_toEnd context (seen value) after
      have hgroup (hopen : token.kind.isOpen = true) :=
        hbehind (fun _ => seen) (.group hopen (.here _)) (skipGroup_suffix ending token rest)
      have hinitializer (hkind : token.kind ∉ [.semicolon, .lBrace, .rBrace]) :=
        hbehind (fun _ => seen) (.single hkind (skipInitializer_flat rest))
          (skipInitializer_suffix ending rest)
      rw [memberDeclaration_cons]
      split
      · next hkind => exact hplain _ (by rw [hkind]; decide)
      · next hkind => exact hplain _ (by rw [hkind]; decide)
      · next hkind => exact hplain _ (by rw [hkind]; decide)
      · next hkind =>
        exact hbehind (fun block => { seen with attributes := seen.attributes ++ [block] })
          (attributeBlock_flat hkind) (attributeBlock_suffix ending token [] rest)
      · next hkind =>
        refine hbehind (fun _ => seen) (.single (by rw [hkind]; decide) ?_)
          (Read.suffix_bind (skipParens_suffix ending rest) fun _ => specifiers_suffix ending)
        exact .bind (skipParens_flat rest) fun _ => specifiers_flat
      · next hkind =>
        exact hbehind (fun _ => seen)
          (.single (by rw [hkind]; decide) (skipAngles_flat token 1 rest))
          (skipAngles_suffix ending token 1 rest)
      · next hkind => exact operator_toEnd context seen hkind rest
      · next hkind =>
        split
        · exact hbehind (fun name => { seen with name := some name })
            (.single (by rw [hkind]; decide) (functionPointer_flat rest))
            (functionPointer_suffix ending rest)
        · split
          · exact hstays _
          · exact .flat (named_toEnd context seen _ (by rw [hkind]; rfl) rest)
      · next hkind => exact hinitializer (by rw [hkind]; decide)
      · next hkind => exact hinitializer (by rw [hkind]; decide)
      · next hkind => exact hgroup (by rw [hkind]; rfl)
      · next hkind => exact hgroup (by rw [hkind]; rfl)
      · next hkind =>
        split
        · exact hstays _
        · exact hplain _ (by rw [hkind]; decide)
      · next hkind =>
        split
        · exact hstays _
        · exact .flat (.semicolon hkind)
      · exact hstays _
      · next hlBrace _ _ hsemicolon hrBrace =>
        exact hplain seen (by simpa using ⟨hsemicolon, hlBrace, hrBrace⟩)
termination_by tokens.length
decreasing_by all_goals simp only [List.length_cons]; omega

-- Behind the members there may be a comment.
theorem plainMembers_flat (context : MemberContext) (tokens : List Token) :
    Flat ending (memberDeclaration context ending Seen.nothing tokens).rest
      (plainMembers context ending tokens).rest := by
  have hdoc := @trailingDoc_flat ending (memberDeclaration context ending Seen.nothing tokens).rest
  unfold plainMembers
  dsimp only
  split
  · exact .here _
  · split
    · next h =>
      rw [h] at hdoc
      exact hdoc
    · exact .here _

end Members

section Types

theorem skipBaseClause_loose (tokens : List Token) :
    Loose ending tokens (skipBaseClause ending tokens).rest := by
  have hangles (opening : Token) (rest : List Token) :
      Loose ending rest (skipAngles ending opening 1 rest).rest :=
    (skipAngles_flat opening 1 rest).loose
  fun_induction skipBaseClause with
    grind [Passes.here, Passes.single, Passes.trans, Passes.of_done, Passes.of_failed,
      Passes.group_done, Passes.group_failed, TokenKind.isOpen, Read.rest_done, Read.rest_failed]

theorem enterBody_loose (tokens : List Token) :
    Loose ending tokens (enterBody ending tokens).rest := by
  refine .bind ?_ fun _ => expect_passes (by decide)
  split
  · next hkind => exact .trans (.tail (by rw [hkind]; decide)) (skipBaseClause_loose _)
  · exact .here tokens

theorem classOpening_toEnd (tokens : List Token) :
    LooseEnds ending tokens (classOpening ending tokens).rest := by
  refine .bind (specifiers_flat tokens).loose fun attributes rest => ?_
  refine .from_ (className_flat rest).loose ?_
  refine .bind (skipTemplateArguments_flat _).loose fun _ after => ?_
  refine .from_ (skipFinal_flat after).loose ?_
  dsimp only
  split
  · next hkind => exact .tail hkind
  · rw [Read.rest_map]
    exact .before (enterBody_loose _)

theorem typeDeclarators_toEnd (name : Option Token) (tokens : List Token) :
    FlatEnds ending tokens (typeDeclarators ending name tokens).rest := by
  fun_induction typeDeclarators with
    grind [Ends.before, Ends.single, Ends.group_done, Ends.semicolon, Ends.from_, Passes.here,
      Passes.single, Passes.of_done, Passes.of_failed, Passes.group_failed, skipInitializer_flat,
      TokenKind.isOpen, Read.rest_done, Read.rest_failed, Read.rest_map]

theorem skipUnderlyingType_loose (tokens : List Token) :
    Loose ending tokens (skipUnderlyingType ending tokens).rest := by
  fun_induction skipUnderlyingType with
    grind [Passes.here, Passes.single, Read.rest_done, Read.rest_failed]

theorem skipValue_flat (tokens : List Token) :
    Flat ending tokens (skipValue ending tokens).rest := by
  unfold skipValue
  split
  · next hkind => exact .trans (.tail (by rw [hkind]; decide)) (skipInitializer_flat _)
  · exact .here tokens

theorem enumerator_flat (annotations : List AnnotationBlock) (tokens : List Token) :
    Flat ending tokens (enumerator ending annotations tokens).rest := by
  unfold enumerator
  split
  · exact .here []
  · split
    · next hkind =>
      refine .single (by rw [hkind]; decide) ?_
      refine .bind (specifiers_flat _) fun attributes rest => ?_
      refine .bind (skipValue_flat rest) fun _ after => ?_
      exact (skipOne_flat (by decide) after).trans (trailingDoc_flat _)
    · exact .here _

theorem enumerators_flat (tokens : List Token) :
    Flat ending tokens (enumerators ending tokens).rest := by
  fun_induction enumerators with
    grind [Passes.trans, Passes.of_done, Passes.of_failed, leadingAnnotations_flat,
      enumerator_flat, Read.rest_done, Read.rest_failed, Read.rest_map]

theorem enumDeclaration_toEnd (annotations : List AnnotationBlock) (keyword : Token)
    (tokens : List Token) :
    LooseEnds ending tokens (enumDeclaration ending annotations keyword tokens).rest := by
  refine .bind (.trans ?_ (specifiers_flat _).loose) fun attributes rest => ?_
  · split
    · next hscoped => exact .tail (by rcases hscoped with hkind | hkind <;> rw [hkind] <;> decide)
    · exact .here tokens
  refine .from_ (qualifiedName_flat rest).loose ?_
  refine .bind ?_ fun _ after => ?_
  · split
    · next hkind => exact .trans (.tail (by rw [hkind]; decide)) (skipUnderlyingType_loose _)
    · exact .here _
  · split
    · next hkind => exact .tail hkind
    · refine .bind (expect_passes (by decide) after) fun _ inner => ?_
      refine .bind (enumerators_flat inner).loose fun _ last => ?_
      refine .bind (expect_passes (by decide) last) fun _ behind => ?_
      rw [Read.rest_map]
      exact (typeDeclarators_toEnd none behind).mono (by simp)

end Types

end Reflection.Header
