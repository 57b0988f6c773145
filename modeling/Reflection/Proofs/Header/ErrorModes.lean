import Reflection.Proofs.Header.Steps

namespace Reflection.Header

variable {α β : Type} {bound larger : Nat}

-- A fatal reading beside the tolerant one of the same tokens. The error that ends a tolerant
-- reading is not reported yet, so it ends the fatal one in the same way.
structure Recorded.Halted (tolerant fatal : Recorded α bound) : Prop where
  same : tolerant.recovered = [] → fatal = tolerant
  ended : ∀ first others, tolerant.recovered = first :: others →
    fatal.outcome = .error first ∧ fatal.recovered = []

structure MemberStep.Halted (tolerant fatal : MemberStep bound) : Prop where
  same : tolerant.recovered = [] → fatal = tolerant
  ended : ∀ first others, tolerant.recovered = first :: others →
    fatal.error = some first ∧ fatal.recovered = []

namespace Recorded.Halted

variable {tolerant fatal : Recorded α bound}

theorem of_unreported {read : Recorded α bound} (h : read.recovered = []) : read.Halted read :=
  ⟨fun _ => rfl, fun first others hsome => by rw [h] at hsome; cases hsome⟩

theorem of_first {error : ParseError} {others : List ParseError}
    (hreported : tolerant.recovered = error :: others) (houtcome : fatal.outcome = .error error)
    (hnone : fatal.recovered = []) : tolerant.Halted fatal := by
  refine ⟨fun hempty => ?_, fun first more hsome => ?_⟩
  · rw [hreported] at hempty
    cases hempty
  · rw [hreported] at hsome
    cases hsome
    exact ⟨houtcome, hnone⟩

-- What is done after a reading keeps its reports and its error, so it keeps this relation.
theorem finish (after : Recorded α bound → Recorded β larger)
    (hrecovered : ∀ read, (after read).recovered = read.recovered)
    (houtcome : ∀ read error, read.outcome = .error error →
      (after read).outcome = .error error)
    (h : tolerant.Halted fatal) : (after tolerant).Halted (after fatal) := by
  refine ⟨fun hnone => ?_, fun first others hsome => ?_⟩
  · rw [hrecovered] at hnone
    rw [h.same hnone]
  · rw [hrecovered] at hsome
    obtain ⟨herror, hnone⟩ := h.ended first others hsome
    exact ⟨houtcome fatal first herror, (hrecovered fatal).trans hnone⟩

theorem map (f : α → β) (h : tolerant.Halted fatal) : (tolerant.map f).Halted (fatal.map f) :=
  h.finish (.map f) (fun _ => rfl) fun read error herror => by
    simp [Recorded.map, herror, Except.map]

theorem within (hle : bound ≤ larger) (h : tolerant.Halted fatal) :
    (tolerant.within hle).Halted (fatal.within hle) :=
  h.finish (.within hle) (fun _ => rfl) fun _ _ herror => herror

theorem andThen {next : α → List Token → Read β}
    {hnext : ∀ value tokens, (next value tokens).rest.length ≤ tokens.length}
    (h : tolerant.Halted fatal) : (tolerant.andThen next hnext).Halted (fatal.andThen next hnext) := by
  refine h.finish (.andThen · next hnext) (fun read => ?_) fun read error herror => ?_
  · unfold Recorded.andThen
    split
    · rfl
    · simp [Recorded.behind, Recorded.ofRead]
  · unfold Recorded.andThen
    rw [herror]

theorem first_error (h : tolerant.Halted fatal) {first : ParseError} {others : List ParseError}
    (herrors : tolerant.errors = first :: others) :
    fatal.outcome = .error first ∧ fatal.recovered = [] := by
  cases hreported : tolerant.recovered with
  | cons reported more =>
      have hfirst : reported = first := by
        unfold Recorded.errors at herrors
        split at herrors <;> rw [hreported] at herrors <;> cases herrors <;> rfl
      exact hfirst ▸ h.ended reported more hreported
  | nil =>
      rw [h.same hreported]
      unfold Recorded.errors at herrors
      split at herrors
      · rw [hreported] at herrors
        cases herrors
      · next error houtcome =>
        rw [hreported] at herrors
        cases herrors
        exact ⟨houtcome, hreported⟩

theorem no_error (h : tolerant.Halted fatal) (herrors : tolerant.errors = []) :
    fatal = tolerant ∧ ∃ value, tolerant.outcome = .ok value := by
  unfold Recorded.errors at herrors
  split at herrors
  · next value houtcome => exact ⟨h.same herrors, value, houtcome⟩
  · next error _ => exact absurd herrors (by simp)

end Recorded.Halted

namespace MemberStep.Halted

theorem of_unreported {step : MemberStep bound} (h : step.recovered = []) : step.Halted step :=
  ⟨fun _ => rfl, fun first others hsome => by rw [h] at hsome; cases hsome⟩

theorem within {tolerant fatal : MemberStep bound} (hle : bound ≤ larger)
    (h : tolerant.Halted fatal) : (tolerant.within hle).Halted (fatal.within hle) :=
  ⟨fun hnone => by rw [h.same hnone], h.ended⟩

theorem ofRecorded {tolerant fatal : Recorded (List Member) bound} (access : Access)
    (h : tolerant.Halted fatal) :
    (MemberStep.ofRecorded access tolerant).Halted (MemberStep.ofRecorded access fatal) := by
  have hrecovered : ∀ read : Recorded (List Member) bound,
      (MemberStep.ofRecorded access read).recovered = read.recovered := by
    intro read
    unfold MemberStep.ofRecorded
    split <;> rfl
  refine ⟨fun hnone => ?_, fun first others hsome => ?_⟩
  · rw [hrecovered] at hnone
    rw [h.same hnone]
  · rw [hrecovered] at hsome
    obtain ⟨houtcome, hnone⟩ := h.ended first others hsome
    refine ⟨?_, by rw [hrecovered, hnone]⟩
    unfold MemberStep.ofRecorded
    rw [houtcome]

theorem first_error {tolerant fatal : MemberStep bound} (h : tolerant.Halted fatal)
    {first : ParseError} {others : List ParseError} (herrors : tolerant.errors = first :: others) :
    fatal.error = some first ∧ fatal.recovered = [] := by
  unfold MemberStep.errors at herrors
  cases hreported : tolerant.recovered with
  | cons reported more =>
      rw [hreported] at herrors
      cases herrors
      exact h.ended first more hreported
  | nil =>
      rw [hreported] at herrors
      rw [h.same hreported]
      cases herror : tolerant.error with
      | none =>
          rw [herror] at herrors
          cases herrors
      | some error =>
          rw [herror] at herrors
          cases herrors
          exact ⟨rfl, hreported⟩

theorem no_error {tolerant fatal : MemberStep bound} (h : tolerant.Halted fatal)
    (herrors : tolerant.errors = []) : fatal = tolerant ∧ tolerant.error = none := by
  obtain ⟨hreported, herror⟩ := List.append_eq_nil_iff.mp herrors
  exact ⟨h.same hreported, Option.toList_eq_nil_iff.mp herror⟩

end MemberStep.Halted

-- Two readings go together from a declaration on if the fatal one ends with the first error of the
-- declaration, or else, when there is none, both give the same here and go together from there on.
theorem Recorded.Halted.of_step {values : List α} {errors : List ParseError} {first last : Nat}
    {tolerant : Recorded (List α) first} {tolerantAll fatalAll : Recorded (List α) last}
    (hstep : Recorded.Extends values errors tolerant tolerantAll)
    (hstop : ∀ error others, errors = error :: others →
      fatalAll.outcome = .error error ∧ fatalAll.recovered = [])
    (hgo : errors = [] → ∃ fatal : Recorded (List α) first,
      Recorded.Extends values [] fatal fatalAll ∧ tolerant.Halted fatal) :
    tolerantAll.Halted fatalAll := by
  obtain ⟨houtcome, hrecovered, hrest⟩ := hstep
  cases herrors : errors with
  | cons error others =>
      rw [herrors] at hrecovered
      refine ⟨fun hnone => ?_, fun reported more hsome => ?_⟩
      · rw [hrecovered] at hnone
        cases hnone
      · rw [hrecovered] at hsome
        cases hsome
        exact hstop error others herrors
  | nil =>
      obtain ⟨fatal, ⟨foutcome, frecovered, frest⟩, h⟩ := hgo herrors
      rw [herrors, List.nil_append] at hrecovered
      rw [List.nil_append] at frecovered
      refine ⟨fun hnone => ?_, fun error others hsome => ?_⟩
      · have hsame := h.same (hrecovered.symm.trans hnone)
        rw [hsame] at foutcome frecovered frest
        cases tolerantAll
        cases fatalAll
        simp_all
      · obtain ⟨herror, hnone⟩ := h.ended error others (hrecovered.symm.trans hsome)
        rw [herror] at foutcome
        exact ⟨foutcome, frecovered.trans hnone⟩

-- In the statements about one declaration, `hclass` and `hscope` say that shorter readings go
-- together; the readings of bodies and scopes tie the knot.
section Classes

variable {ending : Token} {tokens : List Token}

theorem templateDeclaration_halted (annotations : List AnnotationBlock)
    (hclass : ∀ annotations isTemplate keyword rest, rest.length < tokens.length →
      (classDeclaration .tolerant ending annotations isTemplate keyword rest).Halted
        (classDeclaration .fatal ending annotations isTemplate keyword rest)) :
    (templateDeclaration .tolerant ending annotations tokens).Halted
      (templateDeclaration .fatal ending annotations tokens) := by
  rw [templateDeclaration, templateDeclaration]
  split
  · exact .of_unreported rfl
  · exact .of_unreported rfl
  · next keyword rest hread =>
    have hle := (Read.suffix_of_done (skipTemplateArguments_suffix ending tokens) hread).length_le
    refine Recorded.Halted.within _ ?_
    split
    · exact ((hclass annotations true keyword rest hle).map _).within _
    · exact .of_unreported rfl

theorem member_halted (name : Option String) (access : Access)
    (annotations : List AnnotationBlock)
    (hclass : ∀ annotations isTemplate keyword rest, rest.length < tokens.length →
      (classDeclaration .tolerant ending annotations isTemplate keyword rest).Halted
        (classDeclaration .fatal ending annotations isTemplate keyword rest)) :
    (member .tolerant ending name access annotations tokens).Halted
      (member .fatal ending name access annotations tokens) := by
  cases tokens with
  | nil =>
      rw [member, member]
      exact .of_unreported rfl
  | cons token rest =>
      rw [member_cons, member_cons]
      cases memberForm (token :: rest) with
      | classType =>
          exact .ofRecorded access
            (((hclass annotations false token rest (Nat.lt_succ_self _)).map _).within _)
      | template =>
          have htemplate := templateDeclaration_halted annotations fun annotations isTemplate
            keyword inner hlt => hclass annotations isTemplate keyword inner
              (Nat.lt_succ_of_lt hlt)
          exact .ofRecorded access ((htemplate.map _).within _)
      | enumType => exact .ofRecorded access (.of_unreported rfl)
      | label | skipped | empty | closing | plain => exact .of_unreported rfl

theorem memberStep_halted (name : Option String) (access : Access)
    (hclass : ∀ annotations isTemplate keyword rest, rest.length < tokens.length →
      (classDeclaration .tolerant ending annotations isTemplate keyword rest).Halted
        (classDeclaration .fatal ending annotations isTemplate keyword rest)) :
    (memberStep .tolerant ending name access tokens).Halted
      (memberStep .fatal ending name access tokens) := by
  rw [memberStep, memberStep]
  split
  · exact .of_unreported rfl
  · next annotations rest hread =>
    have hle := leadingAnnotations_length hread
    exact (member_halted name access annotations fun annotations isTemplate keyword inner hlt =>
      hclass annotations isTemplate keyword inner (Nat.lt_of_lt_of_le hlt hle)).within hle

-- By well-founded recursion: the rest of the body after a declaration is read from fewer tokens.
theorem classBody_halted (name : Option String) (access : Access) (tokens : List Token)
    (hclass : ∀ annotations isTemplate keyword rest, rest.length < tokens.length →
      (classDeclaration .tolerant ending annotations isTemplate keyword rest).Halted
        (classDeclaration .fatal ending annotations isTemplate keyword rest)) :
    (classBody .tolerant ending name access tokens).Halted
      (classBody .fatal ending name access tokens) := by
  match tokens with
  | [] =>
      rw [classBody, classBody]
      exact .of_unreported rfl
  | token :: rest =>
      by_cases hbrace : token.kind = .rBrace
      · rw [classBody, classBody]
        simp only [if_pos hbrace]
        exact .of_unreported rfl
      · have hstep := memberStep_halted name access hclass
        apply Recorded.Halted.of_step (classBody_extends name access hbrace (.inl rfl))
        · intro error others herrors
          obtain ⟨herror, hnone⟩ := hstep.first_error herrors
          obtain ⟨houtcome, hrecovered⟩ := classBody_fatal_error name access hbrace herror
          exact ⟨houtcome, hrecovered.trans hnone⟩
        · intro herrors
          obtain ⟨hsame, herror⟩ := hstep.no_error herrors
          have hfatal := classBody_extends name access hbrace (.inr (hsame ▸ herror))
          rw [hsame, herrors] at hfatal
          refine ⟨_, hfatal, classBody_halted name _ _ ?_⟩
          intro annotations isTemplate keyword inner hlt
          exact hclass annotations isTemplate keyword inner
            (Nat.lt_of_lt_of_le hlt (Nat.le_trans resume_length (Nat.le_succ _)))
termination_by tokens.length
decreasing_by
  have := @resume_length token rest
    (memberStep .tolerant ending name access (token :: rest)).next
  simp only [List.length_cons]
  omega

-- The body of a class is read from fewer tokens than the class, and the classes in it from fewer
-- tokens still.
theorem classDeclaration_halted (annotations : List AnnotationBlock) (isTemplate : Bool)
    (keyword : Token) (tokens : List Token) :
    (classDeclaration .tolerant ending annotations isTemplate keyword tokens).Halted
      (classDeclaration .fatal ending annotations isTemplate keyword tokens) := by
  rw [classDeclaration, classDeclaration]
  split
  · exact .of_unreported rfl
  · next opening rest hread =>
    have hle := classOpening_length hread
    dsimp only
    split
    · have hbody := @classBody_halted ending opening.name.getLast?
        (classKey keyword).defaultAccess rest fun annotations isTemplate keyword inner hlt =>
          classDeclaration_halted annotations isTemplate keyword inner
      exact hbody.andThen.within hle
    · exact .of_unreported rfl
termination_by tokens.length

end Classes

section Scopes

variable {ending : Token} {tokens : List Token}

theorem namespaceDeclaration_halted (isInline : Bool) (keyword : Token)
    (hscope : ∀ inner, inner.length ≤ tokens.length →
      (scope .tolerant ending true inner).Halted (scope .fatal ending true inner)) :
    (namespaceDeclaration .tolerant ending isInline keyword tokens).Halted
      (namespaceDeclaration .fatal ending isInline keyword tokens) := by
  rw [namespaceDeclaration, namespaceDeclaration]
  split
  · exact .of_unreported rfl
  · next opening rest hread =>
    have hle := (Read.suffix_of_done (namespaceOpening_suffix ending tokens) hread).length_le
    split
    · exact (hscope rest hle).andThen.within hle
    · exact .of_unreported rfl

theorem scopeDeclaration_halted (annotations : List AnnotationBlock)
    (hscope : ∀ inner, inner.length < tokens.length →
      (scope .tolerant ending true inner).Halted (scope .fatal ending true inner)) :
    (scopeDeclaration .tolerant ending annotations tokens).Halted
      (scopeDeclaration .fatal ending annotations tokens) := by
  cases tokens with
  | nil =>
      rw [scopeDeclaration, scopeDeclaration]
      exact .of_unreported rfl
  | cons token rest =>
      have hshorter : ∀ inner : List Token, inner.length ≤ rest.length →
          (scope .tolerant ending true inner).Halted (scope .fatal ending true inner) :=
        fun inner hle => hscope inner (Nat.lt_succ_of_le hle)
      rw [scopeDeclaration_cons, scopeDeclaration_cons]
      cases scopeForm (token :: rest) with
      | namespaceDecl => exact (namespaceDeclaration_halted false token hshorter).within _
      | inlineNamespace =>
          have htail : rest.tail.length ≤ rest.length := by
            rw [List.length_tail]
            omega
          exact (namespaceDeclaration_halted true _ fun inner hle =>
            hshorter inner (Nat.le_trans hle htail)).within _
      | linkage =>
          have htail : rest.tail.tail.length ≤ rest.length := by
            rw [List.length_tail, List.length_tail]
            omega
          exact (hshorter _ htail).andThen.within _
      | classType => exact ((classDeclaration_halted annotations false token rest).map _).within _
      | template =>
          have htemplate := @templateDeclaration_halted ending rest annotations
            fun annotations isTemplate keyword inner _ =>
              classDeclaration_halted annotations isTemplate keyword inner
          exact (htemplate.map _).within _
      | enumType | empty | closing | skipped => exact .of_unreported rfl

theorem scopeItem_halted
    (hscope : ∀ inner, inner.length < tokens.length →
      (scope .tolerant ending true inner).Halted (scope .fatal ending true inner)) :
    (scopeItem .tolerant ending tokens).Halted (scopeItem .fatal ending tokens) := by
  rw [scopeItem, scopeItem]
  split
  · exact .of_unreported rfl
  · next annotations rest hread =>
    have hle := leadingAnnotations_length hread
    exact (scopeDeclaration_halted annotations fun inner hlt =>
      hscope inner (Nat.lt_of_lt_of_le hlt hle)).within hle

theorem scope_halted (nested : Bool) (tokens : List Token) :
    (scope .tolerant ending nested tokens).Halted (scope .fatal ending nested tokens) := by
  match tokens with
  | [] =>
      rw [scope_nil, scope_nil]
      cases nested with
      | false => exact .of_unreported rfl
      | true => exact .of_first rfl rfl rfl
  | token :: rest =>
      by_cases hbrace : token.kind = .rBrace
      · rw [scope_rBrace _ _ _ hbrace, scope_rBrace _ _ _ hbrace]
        cases nested with
        | true => exact .of_unreported rfl
        | false => exact .of_first rfl rfl rfl
      · have hstep := @scopeItem_halted ending (token :: rest)
          fun inner hlt => scope_halted true inner
        apply Recorded.Halted.of_step (scope_extends nested hbrace (.inl rfl))
        · intro error others herrors
          obtain ⟨herror, hnone⟩ := hstep.first_error herrors
          obtain ⟨houtcome, hrecovered⟩ := scope_fatal_error nested hbrace herror
          exact ⟨houtcome, hrecovered.trans hnone⟩
        · intro herrors
          obtain ⟨hsame, found, houtcome⟩ := hstep.no_error herrors
          have hfatal := scope_extends nested hbrace (.inr ⟨found, hsame ▸ houtcome⟩)
          rw [hsame, herrors] at hfatal
          exact ⟨_, hfatal, scope_halted nested _⟩
termination_by tokens.length
decreasing_by
  · exact hlt
  · have := @resume_length token rest (scopeItem .tolerant ending (token :: rest)).next
    simp only [List.length_cons]
    omega

-- Every error in a scope is caught in it, so a tolerant reading always gives declarations.
theorem scope_tolerant_ok (nested : Bool) (tokens : List Token) :
    ∃ entities, (scope .tolerant ending nested tokens).outcome = .ok entities := by
  match tokens with
  | [] =>
      rw [scope_nil]
      cases nested <;> exact ⟨[], rfl⟩
  | token :: rest =>
      by_cases hbrace : token.kind = .rBrace
      · rw [scope_rBrace _ _ _ hbrace]
        cases nested with
        | true => exact ⟨[], rfl⟩
        | false =>
            obtain ⟨entities, houtcome⟩ := scope_tolerant_ok false rest
            exact ⟨entities, houtcome⟩
      · have hextends := @scope_extends .tolerant ending token nested rest hbrace (.inl rfl)
        obtain ⟨entities, houtcome⟩ := scope_tolerant_ok nested
          (resume (token :: rest) (scopeItem .tolerant ending (token :: rest)).next)
        rw [hextends.outcome, houtcome]
        exact ⟨_, rfl⟩
termination_by tokens.length
decreasing_by
  all_goals
    have := @resume_length token rest (scopeItem .tolerant ending (token :: rest)).next
    simp only [List.length_cons]
    omega

end Scopes

-- A tolerant reading always gives a tree. Without errors the fatal reading gives the same, and
-- otherwise it ends with the first error that the tolerant one reports.
theorem fatal_parse_eq_first_error (text : List Char) :
    ∃ parsed, parse .tolerant text = .ok parsed ∧
      parse .fatal text = match parsed.recovered with
        | [] => .ok parsed
        | first :: _ => .error first := by
  have hscope := @scope_halted (scan text).ending false (scan text).items
  obtain ⟨entities, houtcome⟩ :=
    @scope_tolerant_ok (scan text).ending false (scan text).items
  refine ⟨_, parse_of_ok houtcome, ?_⟩
  dsimp only
  cases hreported :
      (scope .tolerant (scan text).ending false (scan text).items).recovered with
  | nil =>
      have hsame := hscope.same hreported
      have hfatal := parse_of_ok (hsame ▸ houtcome)
      rw [hsame, hreported] at hfatal
      exact hfatal
  | cons first others =>
      obtain ⟨herror, _⟩ := hscope.ended first others hreported
      exact parse_of_error herror

end Reflection.Header
