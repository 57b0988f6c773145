import Reflection.Proofs.Header.BraceDepth
import Reflection.Proofs.Header.ErrorModes

namespace Reflection.Header

variable {ending : Token}

section Orderly

-- How deep the opening of a class ends, its body left aside.
def openingDepth : Read ClassOpening → Int
  | .done opening rest => if opening.hasBody then braceDepth rest - 1 else braceDepth rest
  | .failed _ rest => braceDepth rest

-- An enum, the head of a class or the name of an operator that starts here is left, read or given
-- up, as deep as it starts.
def OrderlyAt (ending keyword : Token) (rest : List Token) : Prop :=
  (keyword.kind = .enumKw → startsTypeDeclaration (keyword :: rest) = true →
    braceDepth (enumDeclaration ending [] keyword rest).rest = braceDepth rest) ∧
  (isClassKey keyword.kind = true → startsTypeDeclaration (keyword :: rest) = true →
    openingDepth (classOpening ending rest) = braceDepth rest) ∧
  (keyword.kind = .operatorKw → braceDepth (operatorName ending rest).rest = braceDepth rest)

-- So are all of them.
def Orderly (ending : Token) : List Token → Prop
  | [] => True
  | keyword :: rest => OrderlyAt ending keyword rest ∧ Orderly ending rest

instance (ending keyword : Token) (rest : List Token) :
    Decidable (OrderlyAt ending keyword rest) := inferInstanceAs (Decidable (_ ∧ _ ∧ _))

instance Orderly.decidable (ending : Token) : ∀ tokens, Decidable (Orderly ending tokens)
  | [] => .isTrue trivial
  | keyword :: rest =>
    have := Orderly.decidable ending rest
    inferInstanceAs (Decidable (OrderlyAt ending keyword rest ∧ Orderly ending rest))

theorem Orderly.at_suffix {tokens rest : List Token} {keyword : Token} (h : Orderly ending tokens)
    (hsuffix : keyword :: rest <:+ tokens) : OrderlyAt ending keyword rest := by
  induction tokens with
  | nil => exact absurd (List.suffix_nil.mp hsuffix) (List.cons_ne_nil keyword rest)
  | cons first tokens ih =>
      rcases List.suffix_cons_iff.mp hsuffix with hsame | hsuffix
      · obtain ⟨rfl, rfl⟩ := List.cons.inj hsame
        exact h.1
      · exact ih h.2 hsuffix

theorem Read.rest_bind_congr {α β : Type} (read : Read α) {first second : α → List Token → Read β}
    (h : ∀ value after, (first value after).rest = (second value after).rest) :
    (read.bind first).rest = (read.bind second).rest := by
  cases read with
  | done value after => exact h value after
  | failed error after => rfl

-- What an enum is annotated with does not count for where it ends.
theorem enumDeclaration_rest (annotations others : List AnnotationBlock) (keyword : Token)
    (tokens : List Token) :
    (enumDeclaration ending annotations keyword tokens).rest =
      (enumDeclaration ending others keyword tokens).rest := by
  refine Read.rest_bind_congr _ fun attributes rest => Read.rest_bind_congr _ fun _ after => ?_
  split
  · rfl
  · refine Read.rest_bind_congr _ fun _ inner => Read.rest_bind_congr _ fun decls last => ?_
    refine Read.rest_bind_congr _ fun _ behind => ?_
    rw [Read.rest_map, Read.rest_map]

end Orderly

section Places

variable {frame : Frame} {depth : Int} {keyword : Token} {rest tokens : List Token}

-- A keyword in the declaration, with what comes behind it.
theorem Frame.Deep.behind_key (h : frame.Deep depth (keyword :: rest))
    (hkind : keyword.kind ∉ [.semicolon, .lBrace, .rBrace]) :
    keyword :: rest <:+ frame.tokens ∧ frame.Inside rest ∧ frame.Deep depth rest := by
  simp only [List.mem_cons, List.not_mem_nil, or_false, not_or] at hkind
  have hinside := h.inside hkind.2.2
  exact ⟨hinside.suffix, hinside.tail hkind.1, h.tail (by simp [hkind])⟩

theorem enumDeclaration_deep (horderly : Orderly ending frame.tokens)
    (hkind : keyword.kind = .enumKw) (hstarts : startsTypeDeclaration (keyword :: rest) = true)
    (annotations : List AnnotationBlock) (h : frame.Deep depth (keyword :: rest)) :
    frame.Deep depth (enumDeclaration ending annotations keyword rest).rest := by
  obtain ⟨hsuffix, hinside, hdeep⟩ := h.behind_key (by rw [hkind]; decide)
  refine ⟨(enumDeclaration_toEnd annotations keyword rest).inside hinside, ?_⟩
  rw [enumDeclaration_rest annotations [], (horderly.at_suffix hsuffix).1 hkind hstarts]
  exact hdeep.2

-- Into the body of a namespace or class, if there is one.
def Read.Opens {α : Type} (frame : Frame) (depth : Int) (hasBody : α → Bool) : Read α → Prop
  | .done opening rest => frame.Deep (if hasBody opening then depth + 1 else depth) rest
  | .failed _ rest => frame.Deep depth rest

namespace Read.Opens

variable {α β : Type} {hasBody : β → Bool}

theorem behind {read : Read α} {next : α → List Token → Read β} (h : frame.Deep depth read.rest)
    (hnext : ∀ value after, frame.Deep depth after →
      (next value after).Opens frame depth hasBody) :
    (read.bind next).Opens frame depth hasBody := by
  cases read with
  | done value after => exact hnext value after h
  | failed error after => exact h

theorem without_body {read : Read α} {opening : β} (hbody : hasBody opening = false)
    (h : frame.Deep depth read.rest) : (read.map fun _ => opening).Opens frame depth hasBody := by
  cases read with
  | done value after =>
      show frame.Deep (if hasBody opening then depth + 1 else depth) after
      rwa [hbody, if_neg Bool.false_ne_true]
  | failed error after => exact h

theorem body {opening : β} (hbody : hasBody opening = true) (h : frame.Deep depth tokens) :
    ((expect ending .lBrace tokens).map fun _ => opening).Opens frame depth hasBody := by
  unfold expect
  split
  · next hkind =>
    show frame.Deep (if hasBody opening then depth + 1 else depth) tokens.tail
    rw [hbody, if_pos rfl]
    exact h.enter hkind
  · exact h

end Read.Opens

theorem opens_done {α : Type} {hasBody : α → Bool} (opening : α) :
    (Read.done opening rest).Opens frame depth hasBody ↔
      frame.Deep (if hasBody opening then depth + 1 else depth) rest := Iff.rfl

theorem namespaceOpening_opens (h : frame.Deep depth tokens) :
    (namespaceOpening ending tokens).Opens frame depth NamespaceOpening.hasBody := by
  refine .behind (Flat.deep (specifiers_flat tokens) h) fun _ rest hrest => ?_
  have hnamed := Flat.deep (@qualifiedName_flat ending rest) hrest
  dsimp only
  split
  · exact .without_body rfl (FlatEnds.deep (skipDeclaration_toEnd .nothing _) hnamed)
  · exact .body rfl hnamed

theorem classOpening_opens (horderly : Orderly ending frame.tokens)
    (hkind : isClassKey keyword.kind = true)
    (hstarts : startsTypeDeclaration (keyword :: rest) = true)
    (h : frame.Deep depth (keyword :: rest)) :
    (classOpening ending rest).Opens frame depth ClassOpening.hasBody := by
  have hplain : keyword.kind ∉ [.semicolon, .lBrace, .rBrace] := by
    cases hkey : keyword.kind <;> simp [hkey, isClassKey] at hkind ⊢
  obtain ⟨hsuffix, hinside, hdeep⟩ := h.behind_key hplain
  have hplace := (@classOpening_toEnd ending rest).inside hinside
  have hdepth := ((horderly.at_suffix hsuffix).2.1 hkind hstarts).trans hdeep.2
  cases hread : classOpening ending rest with
  | failed error after =>
      rw [hread] at hplace hdepth
      exact ⟨hplace, hdepth⟩
  | done opening after =>
      rw [hread] at hplace hdepth
      refine ⟨hplace, ?_⟩
      rw [openingDepth] at hdepth
      cases hbody : opening.hasBody with
      | false => simpa [hbody] using hdepth
      | true =>
          rw [hbody, if_pos rfl] at hdepth
          rw [if_pos rfl]
          omega

end Places

section Forms

variable {token : Token} {rest : List Token}

theorem memberForm_classType (h : memberForm (token :: rest) = .classType) :
    isClassKey token.kind = true ∧ startsTypeDeclaration (token :: rest) = true := by
  rw [memberForm, kindAt_cons] at h
  cases hkind : token.kind <;> rw [hkind] at h <;> dsimp only at h <;> grind [isClassKey]

theorem memberForm_enumType (h : memberForm (token :: rest) = .enumType) :
    token.kind = .enumKw ∧ startsTypeDeclaration (token :: rest) = true := by
  rw [memberForm, kindAt_cons] at h
  cases hkind : token.kind <;> rw [hkind] at h <;> dsimp only at h <;> grind

theorem memberForm_brace (h : token.kind ∈ [.lBrace, .rBrace]) :
    memberForm (token :: rest) = .plain ∨ memberForm (token :: rest) = .closing := by
  rw [memberForm, kindAt_cons]
  cases hkind : token.kind <;> simp [hkind] at h ⊢

theorem scopeForm_classType (h : scopeForm (token :: rest) = .classType) :
    isClassKey token.kind = true ∧ startsTypeDeclaration (token :: rest) = true := by
  rw [scopeForm, kindAt_cons] at h
  cases hkind : token.kind <;> rw [hkind] at h <;> dsimp only at h <;> grind [isClassKey]

theorem scopeForm_enumType (h : scopeForm (token :: rest) = .enumType) :
    token.kind = .enumKw ∧ startsTypeDeclaration (token :: rest) = true := by
  rw [scopeForm, kindAt_cons] at h
  cases hkind : token.kind <;> rw [hkind] at h <;> dsimp only at h <;> grind

theorem scopeForm_brace (h : token.kind ∈ [.lBrace, .rBrace]) :
    scopeForm (token :: rest) = .skipped ∨ scopeForm (token :: rest) = .closing := by
  rw [scopeForm, kindAt_cons]
  cases hkind : token.kind <;> simp [hkind] at h ⊢

end Forms

section Members

variable {frame : Frame} {depth : Int} {tokens : List Token} {name : Option String}
  {access : Access}

theorem plainMembers_deep (horderly : Orderly ending frame.tokens) (context : MemberContext)
    (h : frame.Deep depth tokens) : frame.Deep depth (plainMembers context ending tokens).rest := by
  refine Flat.deep (@plainMembers_flat ending context tokens) ?_
  cases @memberDeclaration_toEnd ending context .nothing tokens with
  | flat hends => exact hends.deep h
  | @operator keyword after hkind hflat hends =>
      obtain ⟨hsuffix, hinside, hdeep⟩ :=
        (Flat.deep hflat h).behind_key (by rw [hkind]; decide)
      have hdepth := (horderly.at_suffix hsuffix).2.2 hkind
      exact hends.deep ⟨.inl (Passes.inside List.mem_cons_self (operatorName_loose after) hinside),
        hdepth.trans hdeep.2⟩

-- What is to be shown of the classes that are read from fewer tokens.
def ClassesDeep (ending : Token) (frame : Frame) (bound : Nat) : Prop :=
  ∀ annotations isTemplate keyword rest depth, rest.length < bound →
    isClassKey keyword.kind = true → startsTypeDeclaration (keyword :: rest) = true →
    frame.Deep depth (keyword :: rest) →
    frame.Deep depth (classDeclaration .tolerant ending annotations isTemplate keyword rest).rest

theorem ClassesDeep.mono {bound smaller : Nat} (h : ClassesDeep ending frame bound)
    (hle : smaller ≤ bound) : ClassesDeep ending frame smaller :=
  fun annotations isTemplate keyword rest depth hlt =>
    h annotations isTemplate keyword rest depth (Nat.lt_of_lt_of_le hlt hle)

theorem templateDeclaration_deep (hclass : ClassesDeep ending frame tokens.length)
    (annotations : List AnnotationBlock) (h : frame.Deep depth tokens) :
    frame.Deep depth (templateDeclaration .tolerant ending annotations tokens).rest := by
  have harguments := Flat.deep (@skipTemplateArguments_flat ending tokens) h
  rw [templateDeclaration]
  split
  · next hread =>
    rw [hread] at harguments
    exact harguments
  · next hread =>
    rw [hread] at harguments
    exact harguments
  · next keyword rest hread =>
    rw [hread] at harguments
    have hlt : rest.length < tokens.length :=
      (Read.suffix_of_done (skipTemplateArguments_suffix ending tokens) hread).length_le
    split
    · next hkey =>
      obtain ⟨hkind, hstarts⟩ := Bool.and_eq_true_iff.mp hkey
      exact hclass annotations true keyword rest depth hlt hkind hstarts harguments
    · exact FlatEnds.deep (skipDeclaration_toEnd .nothing _) harguments

theorem member_deep (horderly : Orderly ending frame.tokens)
    (hclass : ClassesDeep ending frame tokens.length) (annotations : List AnnotationBlock)
    (h : frame.Deep depth tokens) :
    frame.Deep depth (member .tolerant ending name access annotations tokens).rest := by
  cases tokens with
  | nil =>
      rw [member]
      exact h
  | cons token rest =>
      have hrest (hplain : memberForm (token :: rest) ≠ .plain)
          (hclosing : memberForm (token :: rest) ≠ .closing) : frame.Deep depth rest :=
        h.tail fun hbrace => (memberForm_brace hbrace).elim hplain hclosing
      rw [member_cons]
      cases hform : memberForm (token :: rest) with
      | label =>
          exact Flat.deep (expect_passes (by decide) rest)
            (hrest (by simp [hform]) (by simp [hform]))
      | classType =>
          obtain ⟨hkind, hstarts⟩ := memberForm_classType hform
          dsimp only
          rw [MemberStep.rest_ofRecorded]
          exact hclass annotations false token rest depth (Nat.lt_succ_self _) hkind hstarts h
      | enumType =>
          obtain ⟨hkind, hstarts⟩ := memberForm_enumType hform
          dsimp only
          rw [MemberStep.rest_ofRecorded]
          exact enumDeclaration_deep horderly hkind hstarts annotations h
      | template =>
          dsimp only
          rw [MemberStep.rest_ofRecorded]
          exact templateDeclaration_deep (hclass.mono (Nat.le_succ _)) annotations
            (hrest (by simp [hform]) (by simp [hform]))
      | skipped => exact FlatEnds.deep (skipDeclaration_toEnd .nothing _) h
      | empty => exact hrest (by simp [hform]) (by simp [hform])
      | closing => exact h
      | plain => exact plainMembers_deep horderly _ h

theorem memberStep_deep (horderly : Orderly ending frame.tokens)
    (hclass : ClassesDeep ending frame tokens.length) (h : frame.Deep depth tokens) :
    frame.Deep depth (memberStep .tolerant ending name access tokens).rest := by
  have hannotations := Flat.deep (@leadingAnnotations_flat ending tokens) h
  rw [memberStep]
  split
  · next hread =>
    rw [hread] at hannotations
    exact hannotations
  · next annotations rest hread =>
    rw [hread] at hannotations
    exact member_deep horderly (hclass.mono (leadingAnnotations_length hread)) annotations
      hannotations

theorem MembersRead.suffix_after {α : Type} {read : Read α} {next : α → List Token → MembersRead}
    (hread : read.rest <:+ tokens) (hnext : ∀ value after, (next value after).rest <:+ after) :
    (MembersRead.after read next).rest <:+ tokens := by
  cases read with
  | done value after => exact (hnext value after).trans hread
  | failed error after => exact hread

-- A group in braces that comes first is passed over.
theorem memberStep_forward (h : kindAt tokens = .lBrace) :
    (memberStep .tolerant ending name access tokens).next.length < tokens.length := by
  cases tokens with
  | nil => cases h
  | cons token rest =>
      rw [kindAt_cons] at h
      have hform : memberForm (token :: rest) = .plain := by rw [memberForm, kindAt_cons, h]
      have hmembers (context : MemberContext) :
          (memberDeclaration context ending .nothing (token :: rest)).rest <:+ rest := by
        rw [memberDeclaration_cons]
        simp only [h]
        exact MembersRead.suffix_after (skipGroup_suffix ending token rest)
          fun _ => memberDeclaration_suffix context ending .nothing
      have hstep : (memberStep .tolerant ending name access (token :: rest)).rest <:+ rest := by
        rw [memberStep_eq_after,
          MemberStep.after_done (leadingAnnotations_plain (by rw [h]; decide) rest), member_cons,
          hform]
        exact (plainMembers_flat _ _).suffix.trans (hmembers _)
      exact Nat.lt_succ_of_le ((MemberStep.next_suffix _).trans hstep).length_le

theorem bodyTurn_deep (horderly : Orderly ending frame.tokens)
    (hclass : ClassesDeep ending frame tokens.length) (h : frame.Deep depth tokens)
    (hbrace : kindAt tokens ≠ .rBrace) :
    frame.Deep depth (bodyTurn ending name access tokens).next := by
  have hstep := @memberStep_deep ending frame depth tokens name access horderly hclass h
  refine resume_deep h hbrace ?_ memberStep_forward
  unfold MemberStep.next
  split
  · exact recover_deep hstep
  · exact hstep

-- A body ends behind a brace that is as deep as the body is.
theorem classBody_deep (horderly : Orderly ending frame.tokens)
    (hclass : ClassesDeep ending frame tokens.length) (h : frame.Deep depth tokens) :
    ∃ brace members, brace.kind = .rBrace ∧
      (classBody .tolerant ending name access tokens).outcome = .ok members ∧
      frame.Deep depth (brace :: (classBody .tolerant ending name access tokens).rest) := by
  obtain ⟨found, errors, last, tail, hcourse, hend⟩ :=
    Course.exists_end (@bodyTurn_suffix ending name) access tokens
  have htail : frame.Deep depth tail ∧ tail.length ≤ tokens.length := by
    refine hcourse.keeps (fun place => frame.Deep depth place ∧ place.length ≤ tokens.length) ?_
      ⟨h, Nat.le_refl _⟩
    rintro access token rest hbrace ⟨hdeep, hle⟩
    refine ⟨bodyTurn_deep horderly (hclass.mono hle) hdeep hbrace, ?_⟩
    have := (@bodyTurn_suffix ending name access token rest).length_le
    rw [List.length_cons] at hle
    omega
  cases tail with
  | nil => exact absurd rfl (Frame.Deep.ne_nil htail.1)
  | cons brace rest =>
      have hbrace : brace.kind = .rBrace := hend.resolve_left (List.cons_ne_nil brace rest)
      have hbody := classBody_course hcourse
      rw [classBody_rBrace .tolerant ending name last hbrace] at hbody
      exact ⟨brace, _, hbrace, hbody.outcome, hbody.rest ▸ htail.1⟩

-- By well-founded recursion: the classes in a class are read from fewer tokens.
theorem classDeclaration_deep (horderly : Orderly ending frame.tokens)
    (annotations : List AnnotationBlock) (isTemplate : Bool) (keyword : Token)
    (tokens : List Token) (depth : Int) (hkind : isClassKey keyword.kind = true)
    (hstarts : startsTypeDeclaration (keyword :: tokens) = true)
    (h : frame.Deep depth (keyword :: tokens)) :
    frame.Deep depth
      (classDeclaration .tolerant ending annotations isTemplate keyword tokens).rest := by
  have hopening := classOpening_opens horderly hkind hstarts h
  rw [classDeclaration]
  split
  · next hread =>
    rw [hread] at hopening
    exact hopening
  · next opening rest hread =>
    rw [hread, opens_done] at hopening
    have hle := classOpening_length hread
    have hclass : ClassesDeep ending frame rest.length :=
      fun annotations isTemplate keyword inner depth _ =>
        classDeclaration_deep horderly annotations isTemplate keyword inner depth
    dsimp only
    split
    · next hbody =>
      rw [if_pos hbody] at hopening
      obtain ⟨brace, members, hbrace, houtcome, hdeep⟩ :=
        @classBody_deep ending frame (depth + 1) rest opening.name.getLast?
          (classKey keyword).defaultAccess horderly hclass hopening
      have hbehind := hdeep.leave h.nonneg hbrace
      rw [Recorded.andThen_ok houtcome]
      simp only [Recorded.within, Recorded.behind, Recorded.ofRead, classEnd, Read.rest_map]
      exact FlatEnds.deep (typeDeclarators_toEnd none _) hbehind
    · next hbody =>
      rw [if_neg hbody] at hopening
      exact hopening
termination_by tokens.length

theorem classesDeep (horderly : Orderly ending frame.tokens) (bound : Nat) :
    ClassesDeep ending frame bound := fun annotations isTemplate keyword inner depth _ =>
  classDeclaration_deep horderly annotations isTemplate keyword inner depth

end Members

section Scopes

variable {frame : Frame} {depth : Int} {tokens : List Token}

-- A scope that ends in front of a brace as deep as the scope is.
def ScopeDeep (ending : Token) (frame : Frame) (tokens : List Token) : Prop :=
  ∀ depth, frame.Deep depth tokens →
    frame.Deep depth (scope .tolerant ending true tokens).rest ∧
      kindAt (scope .tolerant ending true tokens).rest = .rBrace

theorem ScopeDeep.close {α : Type} {value : List Entity → List Token → α}
    (hscope : ScopeDeep ending frame tokens) (hdepth : 0 ≤ depth)
    (h : frame.Deep (depth + 1) tokens) :
    frame.Deep depth ((scope .tolerant ending true tokens).close ending value).rest := by
  obtain ⟨hdeep, hbrace⟩ := hscope _ h
  obtain ⟨entities, houtcome⟩ := @scope_tolerant_ok ending true tokens
  unfold Recorded.close
  rw [Recorded.andThen_ok houtcome]
  simp only [Recorded.behind, Recorded.ofRead, closeScope, expect, if_pos hbrace, Read.bind_done,
    Read.rest_done]
  exact hdeep.leave hdepth hbrace

theorem namespaceDeclaration_deep (isInline : Bool) (keyword : Token)
    (hscope : ∀ inner, inner.length ≤ tokens.length → ScopeDeep ending frame inner)
    (h : frame.Deep depth tokens) :
    frame.Deep depth (namespaceDeclaration .tolerant ending isInline keyword tokens).rest := by
  have hopening := @namespaceOpening_opens ending frame depth tokens h
  rw [namespaceDeclaration]
  split
  · next hread =>
    rw [hread] at hopening
    exact hopening
  · next opening rest hread =>
    rw [hread, opens_done] at hopening
    have hle := (Read.suffix_of_done (namespaceOpening_suffix ending tokens) hread).length_le
    split
    · next hbody =>
      rw [if_pos hbody] at hopening
      exact (hscope rest hle).close h.nonneg hopening
    · next hbody =>
      rw [if_neg hbody] at hopening
      exact hopening

theorem scopeDeclaration_deep (horderly : Orderly ending frame.tokens)
    (annotations : List AnnotationBlock)
    (hscope : ∀ inner, inner.length < tokens.length → ScopeDeep ending frame inner)
    (h : frame.Deep depth tokens) :
    frame.Deep depth (scopeDeclaration .tolerant ending annotations tokens).rest := by
  cases tokens with
  | nil =>
      rw [scopeDeclaration]
      exact h
  | cons token rest =>
      have hrest (hskipped : scopeForm (token :: rest) ≠ .skipped)
          (hclosing : scopeForm (token :: rest) ≠ .closing) : frame.Deep depth rest :=
        h.tail fun hbrace => (scopeForm_brace hbrace).elim hskipped hclosing
      have hshorter (inner : List Token) (hle : inner.length ≤ rest.length) :
          ScopeDeep ending frame inner := hscope inner (Nat.lt_succ_of_le hle)
      have htail : rest.tail.length ≤ rest.length := (List.tail_suffix rest).length_le
      rw [scopeDeclaration_cons]
      cases hform : scopeForm (token :: rest) with
      | namespaceDecl =>
          exact namespaceDeclaration_deep false token hshorter
            (hrest (by simp [hform]) (by simp [hform]))
      | inlineNamespace =>
          have hkind := kindAt_of_inlineNamespace hform
          have hbehind := hrest (by simp [hform]) (by simp [hform])
          exact namespaceDeclaration_deep true (rest.headD ending)
            (fun inner hle => hshorter inner (Nat.le_trans hle htail))
            (hbehind.tail (by rw [show kindAt rest = .namespaceKw from hkind]; decide))
      | linkage =>
          obtain ⟨hstring, hbrace⟩ := kindAt_of_linkage hform
          have hbehind := hrest (by simp [hform]) (by simp [hform])
          refine (hshorter rest.tail.tail ?_).close h.nonneg
            ((hbehind.tail (by rw [show kindAt rest = .string from hstring]; decide)).enter hbrace)
          exact Nat.le_trans (List.tail_suffix rest.tail).length_le htail
      | classType =>
          obtain ⟨hkind, hstarts⟩ := scopeForm_classType hform
          exact classDeclaration_deep horderly annotations false token rest depth hkind hstarts h
      | enumType =>
          obtain ⟨hkind, hstarts⟩ := scopeForm_enumType hform
          exact enumDeclaration_deep horderly hkind hstarts annotations h
      | template =>
          exact templateDeclaration_deep (classesDeep horderly _) annotations
            (hrest (by simp [hform]) (by simp [hform]))
      | empty => exact hrest (by simp [hform]) (by simp [hform])
      | closing => exact h
      | skipped => exact FlatEnds.deep (skipDeclaration_toEnd .nothing _) h

theorem scopeItem_deep (horderly : Orderly ending frame.tokens)
    (hscope : ∀ inner, inner.length < tokens.length → ScopeDeep ending frame inner)
    (h : frame.Deep depth tokens) :
    frame.Deep depth (scopeItem .tolerant ending tokens).rest := by
  have hannotations := Flat.deep (@leadingAnnotations_flat ending tokens) h
  rw [scopeItem]
  split
  · next hread =>
    rw [hread] at hannotations
    exact hannotations
  · next annotations rest hread =>
    rw [hread] at hannotations
    have hle := leadingAnnotations_length hread
    exact scopeDeclaration_deep horderly annotations
      (fun inner hlt => hscope inner (Nat.lt_of_lt_of_le hlt hle)) hannotations

theorem scopeItem_forward (h : kindAt tokens = .lBrace) :
    (scopeItem .tolerant ending tokens).next.length < tokens.length := by
  cases tokens with
  | nil => cases h
  | cons token rest =>
      rw [kindAt_cons] at h
      have hform : scopeForm (token :: rest) = .skipped := by rw [scopeForm, kindAt_cons, h]
      have hskip : (skipDeclaration ending .nothing (token :: rest)).rest <:+ rest := by
        rw [skipDeclaration_cons]
        simp only [h]
        exact Read.suffix_bind (skipGroup_suffix ending token rest)
          fun _ => skipDeclaration_suffix ending .nothing
      have hitem : (scopeItem .tolerant ending (token :: rest)).rest <:+ rest := by
        rw [scopeItem_eq_after,
          Recorded.after_done (leadingAnnotations_plain (by rw [h]; decide) rest),
          scopeDeclaration_cons, hform]
        exact hskip
      exact Nat.lt_succ_of_le ((Recorded.next_suffix _).trans hitem).length_le

theorem scopeTurn_deep (horderly : Orderly ending frame.tokens)
    (hscope : ∀ inner, inner.length < tokens.length → ScopeDeep ending frame inner)
    (h : frame.Deep depth tokens) (hbrace : kindAt tokens ≠ .rBrace) :
    frame.Deep depth (scopeTurn ending () tokens).next := by
  have hitem := scopeItem_deep horderly hscope h
  refine resume_deep h hbrace ?_ scopeItem_forward
  unfold Recorded.next
  split
  · exact hitem
  · exact recover_deep hitem

-- By well-founded recursion: the scopes in a scope are read from fewer tokens.
theorem scope_deep (horderly : Orderly ending frame.tokens) (tokens : List Token) :
    ScopeDeep ending frame tokens := by
  intro depth h
  obtain ⟨found, errors, _, tail, hcourse, hend⟩ :=
    Course.exists_end (@scopeTurn_suffix ending) () tokens
  have htail : frame.Deep depth tail ∧ tail.length ≤ tokens.length := by
    refine hcourse.keeps (fun place => frame.Deep depth place ∧ place.length ≤ tokens.length) ?_
      ⟨h, Nat.le_refl _⟩
    rintro state token rest hbrace ⟨hdeep, hle⟩
    refine ⟨scopeTurn_deep horderly (fun inner hlt => scope_deep horderly inner) hdeep hbrace, ?_⟩
    have := (@scopeTurn_suffix ending state token rest).length_le
    rw [List.length_cons] at hle
    omega
  have hbrace : kindAt tail = .rBrace := hend.resolve_left (Frame.Deep.ne_nil htail.1)
  have hrest : (scope .tolerant ending true tokens).rest = tail := by
    rw [(scope_course true hcourse).rest]
    cases tail with
    | nil => cases hbrace
    | cons brace rest => rw [scope_rBrace .tolerant ending true hbrace]
  rw [hrest]
  exact ⟨htail.1, hbrace⟩
termination_by tokens.length

end Scopes

end Reflection.Header
