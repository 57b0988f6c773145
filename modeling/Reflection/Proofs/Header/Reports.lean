import Reflection.Proofs.Header.Places
import Reflection.Proofs.Header.Steps

namespace Reflection.Header

variable {ending : Token}

-- Errors at places one behind the other, between where a reading starts and where it stops.
inductive Reported (ending : Token) : List Token → List Token → List ParseError → Prop where
  | nil {tokens rest : List Token} (h : rest <:+ tokens) : Reported ending tokens rest []
  | cons {tokens place rest : List Token} {error : ParseError} {errors : List ParseError}
      (hplace : place <:+ tokens) (hspan : error.span = spanAt ending place)
      (hrest : Reported ending place rest errors) : Reported ending tokens rest (error :: errors)

namespace Reported

variable {tokens larger rest after : List Token} {errors others : List ParseError}

theorem suffix (h : Reported ending tokens rest errors) : rest <:+ tokens := by
  induction h with
  | nil h => exact h
  | cons hplace _ _ ih => exact ih.trans hplace

theorem mono (h : Reported ending tokens rest errors) (hle : tokens <:+ larger) :
    Reported ending larger rest errors := by
  cases h with
  | nil h => exact .nil (h.trans hle)
  | cons hplace hspan hrest => exact .cons (hplace.trans hle) hspan hrest

-- By induction on the errors: those of the second reading are behind all of the first one.
theorem append (h : Reported ending tokens rest errors)
    (hothers : Reported ending rest after others) :
    Reported ending tokens after (errors ++ others) := by
  induction h with
  | nil h => exact hothers.mono h
  | cons hplace hspan _ ih => exact .cons hplace hspan (ih hothers)

theorem skip (h : Reported ending tokens rest errors) (hafter : after <:+ rest) :
    Reported ending tokens after errors := by
  rw [← List.append_nil errors]
  exact h.append (.nil hafter)

theorem single {error : ParseError} (h : ErrorAt ending tokens rest error) :
    Reported ending tokens rest [error] := by
  obtain ⟨place, hplace, hrest, hspan⟩ := h
  exact .cons hplace hspan (.nil hrest)

end Reported

section Reports

variable {α β : Type} {bound larger : Nat} {tokens : List Token}

def Recorded.Stays (ending : Token) (tokens : List Token) (read : Recorded α bound) : Prop :=
  Reported ending tokens read.rest read.errors

def MemberStep.Stays (ending : Token) (tokens : List Token) (step : MemberStep bound) : Prop :=
  Reported ending tokens step.rest step.errors

namespace Recorded.Stays

theorem of_done (value : α) {rest : List Token} (hle : rest.length ≤ bound) (h : rest <:+ tokens) :
    (⟨.ok value, [], rest, hle⟩ : Recorded α bound).Stays ending tokens := Reported.nil h

theorem of_failed {error : ParseError} {rest : List Token} (hle : rest.length ≤ bound)
    (h : ErrorAt ending tokens rest error) :
    (⟨.error error, [], rest, hle⟩ : Recorded α bound).Stays ending tokens := Reported.single h

theorem ofRead {read : Read α} (h : read.Stays ending tokens) (hle : read.rest.length ≤ bound) :
    (Recorded.ofRead read hle).Stays ending tokens := by
  cases read with
  | done value rest => exact .of_done value hle h
  | failed error rest => exact .of_failed hle h

variable {read : Recorded α bound}

theorem mono {more : List Token} (h : read.Stays ending tokens) (hle : tokens <:+ more) :
    read.Stays ending more := Reported.mono h hle

theorem within (hle : bound ≤ larger) (h : read.Stays ending tokens) :
    (read.within hle).Stays ending tokens := h

theorem map (f : α → β) (h : read.Stays ending tokens) : (read.map f).Stays ending tokens := by
  unfold Recorded.Stays Recorded.errors at h ⊢
  unfold Recorded.map
  cases houtcome : read.outcome <;> rw [houtcome] at h <;> exact h

theorem andThen {next : α → List Token → Read β}
    (hle : ∀ value rest, (next value rest).rest.length ≤ rest.length)
    (h : read.Stays ending tokens)
    (hnext : ∀ value rest, (next value rest).Stays ending rest) :
    (read.andThen next hle).Stays ending tokens := by
  unfold Recorded.Stays Recorded.errors at h
  unfold Recorded.andThen
  cases houtcome : read.outcome with
  | error error =>
      rw [houtcome] at h
      exact h
  | ok value =>
      rw [houtcome] at h
      have hlast := Recorded.Stays.ofRead (hnext value read.rest)
        (Nat.le_trans (hle value read.rest) read.rest_le)
      dsimp only
      unfold Recorded.Stays
      rw [errors_behind]
      exact Reported.append h hlast

end Recorded.Stays

namespace MemberStep.Stays

theorem within {step : MemberStep bound} (hle : bound ≤ larger) (h : step.Stays ending tokens) :
    (step.within hle).Stays ending tokens := h

theorem nothing (access : Access) {rest : List Token} (hle : rest.length ≤ bound)
    (h : rest <:+ tokens) : (MemberStep.nothing access rest hle).Stays ending tokens :=
  Reported.nil h

theorem failed (access : Access) {error : ParseError} {rest : List Token}
    (hle : rest.length ≤ bound) (h : ErrorAt ending tokens rest error) :
    (MemberStep.failed access error rest hle).Stays ending tokens := Reported.single h

theorem ofSkip (access : Access) {read : Read Unit} (hle : read.rest.length ≤ bound)
    (h : read.Stays ending tokens) : (MemberStep.ofSkip access read hle).Stays ending tokens := by
  cases read with
  | done value rest => exact Reported.nil h
  | failed error rest => exact Reported.single h

theorem ofMembers (access : Access) {read : MembersRead} (hle : read.rest.length ≤ bound)
    (h : read.Stays ending tokens) :
    (MemberStep.ofMembers access read hle).Stays ending tokens := by
  unfold MemberStep.Stays MemberStep.errors
  dsimp only [MemberStep.ofMembers]
  cases herror : read.error with
  | none => exact Reported.nil h.rest
  | some error => exact Reported.single (h.error error herror)

theorem ofRecorded (access : Access) {read : Recorded (List Member) bound}
    (h : read.Stays ending tokens) :
    (MemberStep.ofRecorded access read).Stays ending tokens := by
  unfold Recorded.Stays Recorded.errors at h
  unfold MemberStep.Stays MemberStep.errors MemberStep.ofRecorded
  cases houtcome : read.outcome <;> rw [houtcome] at h
  · exact h
  · simpa using h

end MemberStep.Stays

-- A reading that goes on behind a step has its errors behind those of the step.
theorem Recorded.Stays.of_extends {values : List α} {errors : List ParseError} {first last : Nat}
    {more : Recorded (List α) first} {all : Recorded (List α) last} {rest place : List Token}
    (hall : Recorded.Extends values errors more all) (hstep : Reported ending tokens rest errors)
    (hplace : place <:+ rest) (hmore : more.Stays ending place) : all.Stays ending tokens := by
  unfold Recorded.Stays
  rw [hall.errors_eq, hall.rest]
  exact (hstep.skip hplace).append hmore

end Reports

section Classes

variable {tokens : List Token} {mode : ErrorMode}

-- In the statements about one declaration, `hclass` and `hscope` are the statement for shorter
-- readings; those about bodies and scopes tie the knot.
theorem templateDeclaration_stays (annotations : List AnnotationBlock)
    (hclass : ∀ annotations isTemplate keyword rest, rest.length < tokens.length →
      (classDeclaration mode ending annotations isTemplate keyword rest).Stays ending rest) :
    (templateDeclaration mode ending annotations tokens).Stays ending tokens := by
  have harguments := @skipTemplateArguments_stays ending tokens
  rw [templateDeclaration]
  split
  · next error rest hread =>
    rw [hread] at harguments
    exact .of_failed _ harguments
  · next hread =>
    exact .of_failed _ ⟨[], List.nil_suffix, List.suffix_refl [], rfl⟩
  · next keyword rest hread =>
    have hsuffix := Read.suffix_of_done (skipTemplateArguments_suffix ending tokens) hread
    have hlt : rest.length < tokens.length := hsuffix.length_le
    refine Recorded.Stays.within _ (Recorded.Stays.mono ?_ hsuffix)
    split
    · exact (((hclass annotations true keyword rest hlt).mono
        (List.suffix_cons keyword rest)).map _).within _
    · exact (Recorded.Stays.ofRead (skipDeclaration_stays .nothing _) _).map _

theorem member_stays (name : Option String) (access : Access)
    (annotations : List AnnotationBlock)
    (hclass : ∀ annotations isTemplate keyword rest, rest.length < tokens.length →
      (classDeclaration mode ending annotations isTemplate keyword rest).Stays ending rest) :
    (member mode ending name access annotations tokens).Stays ending tokens := by
  cases tokens with
  | nil =>
      rw [member]
      exact .nothing access _ (List.suffix_refl [])
  | cons token rest =>
      have hrest : rest <:+ token :: rest := List.suffix_cons token rest
      rw [member_cons]
      cases memberForm (token :: rest) with
      | label => exact .ofSkip _ _ ((expect_stays .colon rest).mono hrest)
      | classType =>
          have hread := hclass annotations false token rest (Nat.lt_succ_self _)
          exact .ofRecorded access (((hread.mono hrest).map _).within _)
      | enumType =>
          have hread := @enumDeclaration_stays ending annotations token rest
          exact .ofRecorded access
            (((Recorded.Stays.ofRead (hread.mono hrest) _).map _).within (Nat.le_succ _))
      | template =>
          have hread := templateDeclaration_stays annotations fun annotations isTemplate keyword
            inner hlt => hclass annotations isTemplate keyword inner (Nat.lt_succ_of_lt hlt)
          exact .ofRecorded access (((hread.mono hrest).map _).within _)
      | skipped => exact .ofSkip access _ (skipDeclaration_stays .nothing _)
      | empty => exact .nothing access _ hrest
      | closing => exact .nothing access _ (List.suffix_refl _)
      | plain => exact .ofMembers access _ (plainMembers_stays _ _)

theorem memberStep_stays (name : Option String) (access : Access)
    (hclass : ∀ annotations isTemplate keyword rest, rest.length < tokens.length →
      (classDeclaration mode ending annotations isTemplate keyword rest).Stays ending rest) :
    (memberStep mode ending name access tokens).Stays ending tokens := by
  have hannotations := @leadingAnnotations_stays ending tokens
  rw [memberStep]
  split
  · next error rest hread =>
    rw [hread] at hannotations
    exact .failed access _ hannotations
  · next annotations rest hread =>
    rw [hread] at hannotations
    have hle : rest.length ≤ tokens.length := leadingAnnotations_length hread
    have hmember := @member_stays ending rest mode name access annotations fun annotations
      isTemplate keyword inner hlt => hclass annotations isTemplate keyword inner
        (Nat.lt_of_lt_of_le hlt hle)
    exact MemberStep.Stays.within hle (Reported.mono hmember hannotations)

-- A fatal error ends the body where it ends the declaration.
theorem classBody_stopped {token : Token} {rest : List Token} (name : Option String)
    (access : Access) (h : token.kind ≠ .rBrace)
    (hstop : ¬(mode = .tolerant ∨
      (memberStep mode ending name access (token :: rest)).error = none)) :
    (classBody mode ending name access (token :: rest)).errors =
        (memberStep mode ending name access (token :: rest)).errors ∧
      (classBody mode ending name access (token :: rest)).rest =
        (memberStep mode ending name access (token :: rest)).rest := by
  rw [not_or] at hstop
  obtain ⟨error, herror⟩ := Option.ne_none_iff_exists'.mp hstop.2
  cases mode with
  | tolerant => exact absurd rfl hstop.1
  | fatal =>
      have hbody := classBody.eq_def .fatal ending name access (token :: rest)
      simp only [if_neg h] at hbody
      split at hbody
      · next error hstep _ =>
        rw [hbody]
        exact ⟨by simp [Recorded.errors, MemberStep.errors, hstep], rfl⟩
      · next hne => exact (hne error herror rfl).elim

-- By well-founded recursion: the rest of the body after a declaration is read from fewer tokens.
theorem classBody_stays (name : Option String) (access : Access) (tokens : List Token)
    (hclass : ∀ annotations isTemplate keyword rest, rest.length < tokens.length →
      (classDeclaration mode ending annotations isTemplate keyword rest).Stays ending rest) :
    (classBody mode ending name access tokens).Stays ending tokens := by
  match tokens with
  | [] =>
      rw [classBody]
      exact .of_failed _ ⟨[], List.suffix_refl [], List.suffix_refl [], rfl⟩
  | token :: rest =>
      by_cases hbrace : token.kind = .rBrace
      · rw [classBody_rBrace mode ending name access hbrace]
        exact .of_done [] _ (List.suffix_cons token rest)
      have hstep := memberStep_stays name access hclass
      have hnext := (MemberStep.next_suffix _).trans (Reported.suffix hstep)
      by_cases hmode : mode = .tolerant ∨
          (memberStep mode ending name access (token :: rest)).error = none
      · have hlength := @resume_length token rest
          (memberStep mode ending name access (token :: rest)).next
        refine .of_extends (classBody_extends name access hbrace hmode) hstep
          ((resume_suffix hnext).trans (MemberStep.next_suffix _)) ?_
        refine classBody_stays name _ _ fun annotations isTemplate keyword inner hlt => ?_
        exact hclass annotations isTemplate keyword inner
          (Nat.lt_of_lt_of_le hlt (Nat.le_trans hlength (Nat.le_succ _)))
      · obtain ⟨herrors, hrest⟩ := classBody_stopped name access hbrace hmode
        unfold Recorded.Stays
        rw [herrors, hrest]
        exact hstep
termination_by tokens.length
decreasing_by
  simp only [List.length_cons]
  omega

-- The body of a class is read from fewer tokens than the class, and the classes in it from fewer
-- tokens still.
theorem classDeclaration_stays (annotations : List AnnotationBlock) (isTemplate : Bool)
    (keyword : Token) (tokens : List Token) :
    (classDeclaration mode ending annotations isTemplate keyword tokens).Stays ending tokens := by
  have hopening := @classOpening_stays ending tokens
  rw [classDeclaration]
  split
  · next error rest hread =>
    rw [hread] at hopening
    exact .of_failed _ hopening
  · next opening rest hread =>
    rw [hread] at hopening
    have hle := classOpening_length hread
    dsimp only
    split
    · have hbody := @classBody_stays ending mode opening.name.getLast?
        (classKey keyword).defaultAccess rest fun annotations isTemplate keyword inner hlt =>
          classDeclaration_stays annotations isTemplate keyword inner
      refine Recorded.Stays.within hle (Recorded.Stays.mono ?_ hopening)
      exact hbody.andThen _ fun members rest => (typeDeclarators_stays none rest).map _
    · exact .of_done _ _ hopening
termination_by tokens.length

end Classes

section Scopes

variable {tokens : List Token} {mode : ErrorMode}

theorem Recorded.Stays.close {α β : Type} {bound : Nat} {read : Recorded α bound}
    (value : α → List Token → β) (h : read.Stays ending tokens) :
    (read.close ending value).Stays ending tokens :=
  h.andThen _ fun contents rest => closeScope_stays (value contents) rest

theorem namespaceDeclaration_stays (isInline : Bool) (keyword : Token)
    (hscope : ∀ inner, inner.length ≤ tokens.length →
      (scope mode ending true inner).Stays ending inner) :
    (namespaceDeclaration mode ending isInline keyword tokens).Stays ending tokens := by
  have hopening := @namespaceOpening_stays ending tokens
  rw [namespaceDeclaration]
  split
  · next error rest hread =>
    rw [hread] at hopening
    exact .of_failed _ hopening
  · next opening rest hread =>
    rw [hread] at hopening
    have hle : rest.length ≤ tokens.length := List.IsSuffix.length_le hopening
    split
    · exact ((hscope rest hle).mono hopening).close _ |>.within hle
    · exact .of_done [] _ hopening

theorem scopeDeclaration_stays (annotations : List AnnotationBlock)
    (hscope : ∀ inner, inner.length < tokens.length →
      (scope mode ending true inner).Stays ending inner) :
    (scopeDeclaration mode ending annotations tokens).Stays ending tokens := by
  cases tokens with
  | nil =>
      rw [scopeDeclaration]
      exact .of_done [] _ (List.suffix_refl [])
  | cons token rest =>
      have hrest : rest <:+ token :: rest := List.suffix_cons token rest
      have htail : rest.tail <:+ token :: rest := (List.tail_suffix rest).trans hrest
      have hshorter : ∀ inner : List Token, inner.length ≤ rest.length →
          (scope mode ending true inner).Stays ending inner :=
        fun inner hle => hscope inner (Nat.lt_succ_of_le hle)
      rw [scopeDeclaration_cons]
      cases scopeForm (token :: rest) with
      | namespaceDecl =>
          exact ((namespaceDeclaration_stays false token hshorter).mono hrest).within _
      | inlineNamespace =>
          have hread := @namespaceDeclaration_stays ending rest.tail mode true (rest.headD ending)
            fun inner hle => hshorter inner (Nat.le_trans hle (List.tail_suffix rest).length_le)
          exact (hread.mono htail).within _
      | linkage =>
          have hinner : rest.tail.tail <:+ token :: rest := (List.tail_suffix _).trans htail
          have hle : rest.tail.tail.length ≤ rest.length :=
            ((List.tail_suffix _).trans (List.tail_suffix rest)).length_le
          exact (((hshorter _ hle).mono hinner).close _).within _
      | classType =>
          exact (((classDeclaration_stays annotations false token rest).mono hrest).map _).within _
      | enumType =>
          have hread := @enumDeclaration_stays ending annotations token rest
          exact ((Recorded.Stays.ofRead (hread.mono hrest) _).map _).within (Nat.le_succ _)
      | template =>
          have hread := @templateDeclaration_stays ending rest mode annotations
            fun annotations isTemplate keyword inner _ =>
              classDeclaration_stays annotations isTemplate keyword inner
          exact ((hread.mono hrest).map _).within _
      | empty => exact .of_done [] _ hrest
      | closing => exact .of_done [] _ (List.suffix_refl _)
      | skipped => exact (Recorded.Stays.ofRead (skipDeclaration_stays .nothing _) _).map _

theorem scopeItem_stays
    (hscope : ∀ inner, inner.length < tokens.length →
      (scope mode ending true inner).Stays ending inner) :
    (scopeItem mode ending tokens).Stays ending tokens := by
  have hannotations := @leadingAnnotations_stays ending tokens
  rw [scopeItem]
  split
  · next error rest hread =>
    rw [hread] at hannotations
    exact .of_failed _ hannotations
  · next annotations rest hread =>
    rw [hread] at hannotations
    have hle := leadingAnnotations_length hread
    have hdeclaration := @scopeDeclaration_stays ending rest mode annotations fun inner hlt =>
      hscope inner (Nat.lt_of_lt_of_le hlt hle)
    exact (hdeclaration.mono hannotations).within hle

theorem scope_stopped {token : Token} {rest : List Token} (nested : Bool)
    (h : token.kind ≠ .rBrace)
    (hstop : ¬(mode = .tolerant ∨
      ∃ found, (scopeItem mode ending (token :: rest)).outcome = .ok found)) :
    (scope mode ending nested (token :: rest)).errors =
        (scopeItem mode ending (token :: rest)).errors ∧
      (scope mode ending nested (token :: rest)).rest =
        (scopeItem mode ending (token :: rest)).rest := by
  rw [not_or, not_exists] at hstop
  cases mode with
  | tolerant => exact absurd rfl hstop.1
  | fatal =>
      have hscope := scope.eq_def .fatal ending nested (token :: rest)
      simp only [if_neg h] at hscope
      split at hscope
      · next error hstep _ =>
        rw [hscope]
        exact ⟨by simp [Recorded.errors, hstep], rfl⟩
      · next hne =>
        cases houtcome : (scopeItem .fatal ending (token :: rest)).outcome with
        | ok found => exact absurd houtcome (hstop.2 found)
        | error error => exact (hne error houtcome rfl).elim

-- What a scope reports is at places one behind the other, and it stops behind all of them.
theorem scope_stays (mode : ErrorMode) (nested : Bool) (tokens : List Token) :
    (scope mode ending nested tokens).Stays ending tokens := by
  match tokens with
  | [] =>
      have hend : Reported ending [] [] [.unexpectedEnd ending.span] :=
        .cons (List.suffix_refl []) rfl (.nil (List.suffix_refl []))
      rw [scope_nil]
      cases nested with
      | false => exact .of_done [] _ (List.suffix_refl [])
      | true => cases mode <;> exact hend
  | token :: rest =>
      have hrest : rest <:+ token :: rest := List.suffix_cons token rest
      by_cases hbrace : token.kind = .rBrace
      · have hreport : ErrorAt ending (token :: rest) rest (.unmatchedBrace token.span) :=
          ⟨token :: rest, List.suffix_refl _, hrest, rfl⟩
        cases nested with
        | true =>
            rw [scope_rBrace mode ending true hbrace]
            exact .of_done [] _ (List.suffix_refl _)
        | false =>
            cases mode with
            | fatal =>
                rw [scope_rBrace .fatal ending false hbrace]
                exact .of_failed _ hreport
            | tolerant =>
                exact .of_extends (scope_unmatched hbrace) (.single hreport) (List.suffix_refl rest)
                  (scope_stays .tolerant false rest)
      have hstep := @scopeItem_stays ending (token :: rest) mode
        fun inner hlt => scope_stays mode true inner
      have hnext := (Recorded.next_suffix _).trans (Reported.suffix hstep)
      by_cases hmode : mode = .tolerant ∨
          ∃ found, (scopeItem mode ending (token :: rest)).outcome = .ok found
      · have hlength := @resume_length token rest (scopeItem mode ending (token :: rest)).next
        exact .of_extends (scope_extends nested hbrace hmode) hstep
          ((resume_suffix hnext).trans (Recorded.next_suffix _)) (scope_stays mode nested _)
      · obtain ⟨herrors, hrest⟩ := scope_stopped nested hbrace hmode
        unfold Recorded.Stays
        rw [herrors, hrest]
        exact hstep
termination_by tokens.length
decreasing_by
  all_goals simp only [List.length_cons]
  all_goals omega

end Scopes

end Reflection.Header
