import Reflection.Proofs.Header.Reports
import Reflection.Proofs.Header.Spans.Parts

namespace Reflection

-- The entities of a scope are laid out like the types in a class.
theorem Laid.entities {text : List Char} {outer : Span} {entities : List Entity}
    (h : Laid text outer (entities.map .type)) :
    (∀ entity ∈ entities, entity.Within text outer) ∧
      (entities.map Entity.span).Pairwise (·.start ≤ ·.start) := by
  refine ⟨fun entity hmem => ?_, ?_⟩
  · cases h.within _ (List.mem_map_of_mem hmem) with
    | type hentity => exact hentity
  · simpa [List.map_map, Function.comp_def, Member.span] using h.ordered

namespace Header

-- What a reading gives, if it gives anything, together with what is left behind it.
def Recorded.Gives {α : Type} {bound : Nat} (P : α → List Token → Prop)
    (read : Recorded α bound) : Prop :=
  ∀ value, read.outcome = .ok value → P value read.rest

namespace Recorded.Gives

variable {α β : Type} {bound larger : Nat} {P R : α → List Token → Prop}
  {Q : β → List Token → Prop} {read : Recorded α bound}

theorem of_error {error : ParseError} (reports : List ParseError) {rest : List Token}
    (hle : rest.length ≤ bound) :
    (⟨.error error, reports, rest, hle⟩ : Recorded α bound).Gives P := by
  intro value hvalue
  cases hvalue

theorem of_ok {value : α} (reports : List ParseError) {rest : List Token}
    (hle : rest.length ≤ bound) (h : P value rest) :
    (⟨.ok value, reports, rest, hle⟩ : Recorded α bound).Gives P :=
  fun _ hvalue => Except.ok.inj hvalue ▸ h

theorem ofRead {read : Read α} (hle : read.rest.length ≤ bound) (h : read.Gives P) :
    (Recorded.ofRead read hle).Gives P := by
  cases read with
  | done value rest => exact of_ok [] hle h
  | failed error rest => exact of_error [] hle

theorem within (hle : bound ≤ larger) (h : read.Gives P) : (read.within hle).Gives P := h

theorem imp (h : read.Gives P) (himp : ∀ value, P value read.rest → R value read.rest) :
    read.Gives R := fun value hvalue => himp value (h value hvalue)

theorem map {f : α → β} (h : read.Gives P)
    (hmap : ∀ value, P value read.rest → Q (f value) read.rest) :
    (read.map f).Gives Q := by
  intro value hvalue
  unfold Recorded.map at hvalue
  cases houtcome : read.outcome with
  | error error =>
      rw [houtcome] at hvalue
      cases hvalue
  | ok first =>
      rw [houtcome] at hvalue
      cases hvalue
      exact hmap first (h first houtcome)

theorem andThen {next : α → List Token → Read β}
    (hle : ∀ value rest, (next value rest).rest.length ≤ rest.length) (h : read.Gives P)
    (hnext : ∀ value, P value read.rest → (next value read.rest).Gives Q) :
    (read.andThen next hle).Gives Q := by
  unfold Recorded.andThen
  cases houtcome : read.outcome with
  | error error => exact of_error _ _
  | ok value => exact ofRead _ (hnext value (h value houtcome))

end Recorded.Gives

variable {text : List Char} {ending token : Token} {lead tokens rest : List Token}
  {mode : ErrorMode}

-- A reading that goes on behind a step has its declarations behind those of the step. They are
-- members, or entities seen as members by `f`.
theorem Recorded.Gives.of_extends {α : Type} {f : List α → List Member}
    (hf : ∀ values others, f (values ++ others) = f values ++ f others) {values : List α}
    {errors : List ParseError} {first last : Nat} {more : Recorded (List α) first}
    {all : Recorded (List α) last} {place : List Token}
    (hall : Recorded.Extends values errors more all)
    (hvalues : Laid text (between ending tokens rest) (f values))
    (hmore : more.Gives fun others after => Laid text (between ending place after) (f others))
    (h : InText text ending tokens) (hrest : rest <:+ tokens) (hplace : place <:+ rest)
    (hafter : more.rest <:+ place) :
    all.Gives fun others after => Laid text (between ending tokens after) (f others) := by
  intro value hvalue
  rw [hall.outcome] at hvalue
  rw [hall.rest]
  cases houtcome : more.outcome with
  | error error =>
      rw [houtcome] at hvalue
      cases hvalue
  | ok others =>
      rw [houtcome] at hvalue
      cases hvalue
      rw [hf]
      exact hvalues.append (hmore others houtcome) h hrest hplace hafter

section Classes

variable {annotations : List AnnotationBlock} {bound : Nat}

-- In the statements about one declaration, `hclass` and `hscope` are the statement for shorter
-- readings; those about bodies and scopes tie the knot.
def ClassLaid (text : List Char) (mode : ErrorMode) (ending keyword : Token)
    (tokens : List Token) : Prop :=
  ∀ lead annotations isTemplate access, Annotated text ending lead (keyword :: tokens) annotations →
    (classDeclaration mode ending annotations isTemplate keyword tokens).Gives fun read rest =>
      Laid text (between ending lead rest) (typeMembers access read.1 read.2)

def MemberStep.Lays (text : List Char) (ending : Token) (lead : List Token)
    (step : MemberStep bound) : Prop :=
  Laid text (between ending lead step.rest) step.members

theorem MemberStep.Lays.ofRecorded (access : Access) {read : Recorded (List Member) bound}
    (h : read.Gives fun members rest => Laid text (between ending lead rest) members) :
    (MemberStep.ofRecorded access read).Lays text ending lead := by
  unfold MemberStep.Lays MemberStep.ofRecorded
  cases houtcome : read.outcome with
  | error error => exact Laid.nil _
  | ok members => exact h members houtcome

theorem templateDeclaration_laid (hannotated : Annotated text ending lead tokens annotations)
    (hclass : ∀ keyword rest, rest.length < tokens.length →
      ClassLaid text mode ending keyword rest) :
    (templateDeclaration mode ending annotations tokens).Gives fun entity rest =>
      Laid text (between ending lead rest) (entity.toList.map .type) := by
  rw [templateDeclaration]
  split
  · exact .of_error _ _
  · exact .of_error _ _
  · next keyword rest hread =>
    have hsuffix := Read.suffix_of_done (skipTemplateArguments_suffix ending tokens) hread
    refine Recorded.Gives.within _ ?_
    split
    · have hread := hclass keyword rest hsuffix.length_le lead annotations true .publicAccess
        (hannotated.later hsuffix)
      exact (hread.map fun read hlaid => hlaid.head).within _
    · have hskip := Read.Gives.of_suffix (skipDeclaration_suffix ending .nothing (keyword :: rest))
      exact (Recorded.Gives.ofRead _ hskip).map fun _ _ => Laid.nil _

theorem member_laid (name : Option String) (access : Access)
    (hannotated : Annotated text ending lead tokens annotations)
    (hclass : ∀ keyword rest, rest.length < tokens.length →
      ClassLaid text mode ending keyword rest) :
    (member mode ending name access annotations tokens).Lays text ending lead := by
  cases tokens with
  | nil =>
      rw [member]
      exact Laid.nil _
  | cons token rest =>
      rw [member_cons]
      cases memberForm (token :: rest) with
      | label => exact Laid.nil _
      | classType =>
          have hread := hclass token rest (Nat.lt_succ_self _) lead annotations false access
            hannotated
          exact .ofRecorded access ((hread.map fun _ hlaid => hlaid).within _)
      | enumType =>
          have hread := Recorded.Gives.ofRead
            (enumDeclaration_suffix ending annotations token rest).length_le
            (enumDeclaration_laid hannotated access)
          exact .ofRecorded access ((hread.map fun _ hlaid => hlaid).within (Nat.le_succ _))
      | template =>
          have hread := templateDeclaration_laid (hannotated.later (List.suffix_cons token rest))
            fun keyword inner hlt => hclass keyword inner (Nat.lt_succ_of_lt hlt)
          exact .ofRecorded access ((hread.map fun _ hlaid => hlaid).within _)
      | skipped => exact Laid.nil _
      | empty => exact Laid.nil _
      | closing => exact Laid.nil _
      | plain => exact plainMembers_laid ⟨hannotated, rfl⟩

theorem memberStep_laid (name : Option String) (access : Access) (h : InText text ending tokens)
    (hclass : ∀ keyword rest, rest.length < tokens.length →
      ClassLaid text mode ending keyword rest) :
    (memberStep mode ending name access tokens).Lays text ending tokens := by
  have hannotations := leadingAnnotations_annotated h
  rw [memberStep]
  split
  · exact Laid.nil _
  · next annotations rest hread =>
    rw [hread] at hannotations
    exact member_laid name access hannotations fun keyword inner hlt =>
      hclass keyword inner (Nat.lt_of_lt_of_le hlt (leadingAnnotations_length hread))

-- By well-founded recursion, as the body is read.
theorem classBody_laid (name : Option String) (access : Access) (tokens : List Token)
    (h : InText text ending tokens)
    (hclass : ∀ keyword rest, rest.length < tokens.length →
      ClassLaid text mode ending keyword rest) :
    (classBody mode ending name access tokens).Gives fun members rest =>
      Laid text (between ending tokens rest) members := by
  match tokens with
  | [] =>
      rw [classBody]
      exact .of_error _ _
  | token :: rest =>
      by_cases hbrace : token.kind = .rBrace
      · rw [classBody_rBrace mode ending name access hbrace]
        exact .of_ok _ _ (Laid.nil _)
      have hclasses := @classDeclaration_stays ending mode
      have hstep := memberStep_laid name access h hclass
      have hstays : Reported ending (token :: rest) _ _ :=
        memberStep_stays name access fun annotations isTemplate keyword inner _ =>
          hclasses annotations isTemplate keyword inner
      by_cases hmode : mode = .tolerant ∨
          (memberStep mode ending name access (token :: rest)).error = none
      · have hnext := MemberStep.next_suffix (memberStep mode ending name access (token :: rest))
        have hplace := (resume_suffix (hnext.trans hstays.suffix)).trans hnext
        have hlength := @resume_length token rest
          (memberStep mode ending name access (token :: rest)).next
        refine .of_extends (f := id) (fun _ _ => rfl) (classBody_extends name access hbrace hmode)
          hstep ?_ h hstays.suffix hplace ?_
        · refine classBody_laid name _ _ (h.suffix (hplace.trans hstays.suffix))
            fun keyword inner hlt => hclass keyword inner ?_
          exact Nat.lt_of_lt_of_le hlt (Nat.le_trans hlength (Nat.le_succ _))
        · exact Reported.suffix (classBody_stays name _ _
            fun annotations isTemplate keyword inner _ =>
              hclasses annotations isTemplate keyword inner)
      · rw [not_or] at hmode
        obtain ⟨error, herror⟩ := Option.ne_none_iff_exists'.mp hmode.2
        cases mode with
        | tolerant => exact absurd rfl hmode.1
        | fatal =>
            intro members hmembers
            rw [(classBody_fatal_error name access hbrace herror).1] at hmembers
            cases hmembers
termination_by tokens.length
decreasing_by
  simp only [List.length_cons]
  omega

theorem classOpening_annotated {keyword : Token}
    (hannotated : Annotated text ending lead (keyword :: tokens) annotations) :
    (classOpening ending tokens).Gives fun opening rest =>
      Annotated text ending lead rest (annotations ++ opening.attributes) := by
  have hspecifiers := (specifiers_spans tokens hannotated.here.tail).and_suffix
    (specifiers_suffix ending tokens)
  refine hspecifiers.bind ?_
  rintro attributes rest ⟨hattributes, hrest⟩
  have hopened := hannotated.append hattributes (List.suffix_cons keyword tokens) hrest
  have harguments := (skipTemplateArguments_suffix ending (className rest).2).trans
    (className_suffix rest)
  refine (Read.Gives.of_suffix harguments).bind fun _ after hafter => ?_
  have hfinal := (skipFinal_suffix after).trans hafter
  dsimp only
  split
  · exact hopened.later ((List.tail_suffix _).trans hfinal)
  · have hbody := (enterBody_suffix ending (skipFinal after)).trans hfinal
    exact (Read.Gives.of_suffix hbody).map fun _ _ hbody => hopened.later hbody

-- The body of a class is read from fewer tokens than the class, and the classes in it from fewer
-- tokens still.
theorem classDeclaration_laid (keyword : Token) (tokens : List Token) :
    ClassLaid text mode ending keyword tokens := by
  intro lead annotations isTemplate access hannotated
  have hkeyword := hannotated.suffix
  have hopening := classOpening_annotated hannotated
  rw [classDeclaration]
  split
  · exact .of_error _ _
  · next opening rest hread =>
    rw [hread] at hopening
    have hle := classOpening_length hread
    have hrest := Read.suffix_of_done (classOpening_suffix ending tokens) hread
    dsimp only
    split
    · have hstays := @classBody_stays ending mode opening.name.getLast?
        (classKey keyword).defaultAccess rest fun annotations isTemplate keyword inner _ =>
          classDeclaration_stays annotations isTemplate keyword inner
      have hbody := @classBody_laid text ending mode opening.name.getLast?
        (classKey keyword).defaultAccess rest hopening.here fun keyword inner hlt =>
          classDeclaration_laid keyword inner
      refine Recorded.Gives.within hle (hbody.andThen _ fun members hmembers => ?_)
      have hstop := Reported.suffix hstays
      have hend := hstop.trans hrest
      have hnames := typeDeclarators_spans none _ (hopening.here.suffix hstop) (List.suffix_refl _)
        (none_inside _)
      refine (hnames.and_suffix (typeDeclarators_suffix ending none _)).map ?_
      rintro names last ⟨hnames, hlast⟩
      have hinside := declaration_inside hannotated.inText hkeyword hend
      obtain ⟨hlower, hupper⟩ := declaration_covers hannotated.here hend rfl
      have hlaid := hmembers.widen hannotated.here.tail hrest hstop (List.suffix_refl _)
      have hcontents := hlaid.mono hlower hupper
      have hannotations := (hopening.later hstop).annotations
      exact typeMembers_laid (.classDecl hinside hannotations hcontents.within hcontents.ordered)
        hnames hannotated.inText (hstop.trans hopening.suffix) hlast access
    · have hinside := declaration_inside hannotated.inText hkeyword hrest
      refine .of_ok [] hle ?_
      refine typeMembers_laid ?_ (Siblings.nil _) hannotated.inText hopening.suffix
        (List.suffix_refl rest) access
      exact .classDecl hinside hopening.annotations (by simp) (by simp)
termination_by tokens.length

end Classes

section Scopes

variable {annotations : List AnnotationBlock}

def ScopeLaid (text : List Char) (mode : ErrorMode) (ending : Token) (tokens : List Token) :
    Prop :=
  (scope mode ending true tokens).Gives fun entities rest =>
    Laid text (between ending tokens rest) (entities.map .type)

theorem closeScope_laid {α : Type} {P : α → List Token → Prop} {value : List Token → α}
    (h : ∀ rest, rest <:+ tokens → P (value rest) rest) :
    (closeScope ending value tokens).Gives P :=
  (Read.Gives.of_suffix (expect_suffix ending .rBrace tokens)).bind fun _ rest hrest => h rest hrest

theorem namespaceDeclaration_laid (isInline : Bool) {keyword : Token}
    (h : InText text ending (keyword :: tokens))
    (hscope : ∀ inner, inner <:+ tokens → ScopeLaid text mode ending inner) :
    (namespaceDeclaration mode ending isInline keyword tokens).Gives fun entities rest =>
      Laid text (between ending (keyword :: tokens) rest) (entities.map .type) := by
  rw [namespaceDeclaration]
  split
  · exact .of_error _ _
  · next opening rest hread =>
    have hrest := Read.suffix_of_done (namespaceOpening_suffix ending tokens) hread
    split
    · have hstays : Reported ending rest _ _ := scope_stays mode true rest
      refine Recorded.Gives.within _ ((hscope rest hrest).andThen _ fun entities hentities => ?_)
      refine closeScope_laid fun stop hstop => ?_
      have hinner := hstop.trans hstays.suffix
      have hend := hinner.trans hrest
      obtain ⟨hlower, hupper⟩ := declaration_covers h hend rfl
      have hlaid := hentities.widen h.tail hrest hstays.suffix hstop
      obtain ⟨hwithin, hordered⟩ := (hlaid.mono hlower hupper).entities
      have hinside := declaration_inside h (List.suffix_refl _) hend
      exact ⟨List.forall_mem_singleton.mpr (.type (.namespaceDecl hinside hwithin hordered)),
        List.pairwise_singleton _ _⟩
    · exact .of_ok [] _ (Laid.nil _)

-- The entities of a reading that starts behind `lead`.
theorem Recorded.Gives.behind {bound : Nat} {read : Recorded (List Entity) bound}
    (hread : read.Gives fun entities rest =>
      Laid text (between ending tokens rest) (entities.map .type))
    (hstays : read.Stays ending tokens) (h : InText text ending lead) (htokens : tokens <:+ lead) :
    read.Gives fun entities rest => Laid text (between ending lead rest) (entities.map .type) :=
  hread.imp fun _ hlaid => hlaid.widen h htokens (Reported.suffix hstays) (List.suffix_refl _)

theorem scopeDeclaration_laid (hannotated : Annotated text ending lead tokens annotations)
    (hscope : ∀ inner, inner <:+ tokens → inner.length < tokens.length →
      ScopeLaid text mode ending inner) :
    (scopeDeclaration mode ending annotations tokens).Gives fun entities rest =>
      Laid text (between ending lead rest) (entities.map .type) := by
  cases tokens with
  | nil =>
      rw [scopeDeclaration]
      exact .of_ok [] _ (Laid.nil _)
  | cons token rest =>
      have hrest : rest <:+ token :: rest := List.suffix_cons token rest
      have hclass := @classDeclaration_laid text ending mode
      have hshorter (inner : List Token) (hinner : inner <:+ rest) :
          ScopeLaid text mode ending inner :=
        hscope inner (hinner.trans hrest) (Nat.lt_succ_of_le hinner.length_le)
      rw [scopeDeclaration_cons]
      cases hform : scopeForm (token :: rest) with
      | namespaceDecl =>
          have hread := namespaceDeclaration_laid false hannotated.here hshorter
          have hstays := @namespaceDeclaration_stays ending rest mode false token
            fun inner _ => scope_stays mode true inner
          exact (hread.behind (hstays.mono hrest) hannotated.inText hannotated.suffix).within _
      | inlineNamespace =>
          cases rest with
          | nil => cases kindAt_of_inlineNamespace hform
          | cons keyword rest =>
              have hinner := hrest.trans hannotated.suffix
              have hread := namespaceDeclaration_laid true hannotated.here.tail
                fun inner hinner => hshorter inner (Read.suffix_cons hinner keyword)
              have hstays := @namespaceDeclaration_stays ending rest mode true keyword
                fun inner _ => scope_stays mode true inner
              exact (hread.behind (hstays.mono (List.suffix_cons keyword rest)) hannotated.inText
                hinner).within _
      | linkage =>
          have htail : rest.tail.tail <:+ rest := (List.tail_suffix _).trans (List.tail_suffix rest)
          have hstays : Reported ending rest.tail.tail _ _ := scope_stays mode true rest.tail.tail
          refine Recorded.Gives.within _ ((hshorter _ htail).andThen _ fun entities hentities => ?_)
          exact closeScope_laid fun stop hstop => hentities.widen hannotated.inText
            ((htail.trans hrest).trans hannotated.suffix) hstays.suffix hstop
      | classType =>
          have hread := hclass token rest lead annotations false .publicAccess hannotated
          exact (hread.map fun _ hlaid => hlaid.head).within _
      | enumType =>
          have hread := Recorded.Gives.ofRead
            (enumDeclaration_suffix ending annotations token rest).length_le
            (enumDeclaration_laid hannotated .publicAccess)
          exact (hread.map fun _ hlaid => hlaid.head).within (Nat.le_succ _)
      | template =>
          have hread := templateDeclaration_laid (hannotated.later hrest)
            fun keyword inner _ => hclass keyword inner
          exact (hread.map fun _ hlaid => hlaid).within _
      | empty => exact .of_ok [] _ (Laid.nil _)
      | closing => exact .of_ok [] _ (Laid.nil _)
      | skipped =>
          have hskip := Read.Gives.of_suffix
            (skipDeclaration_suffix ending .nothing (token :: rest))
          exact (Recorded.Gives.ofRead _ hskip).map fun _ _ => Laid.nil _

theorem scopeItem_laid (h : InText text ending tokens)
    (hscope : ∀ inner, inner <:+ tokens → inner.length < tokens.length →
      ScopeLaid text mode ending inner) :
    (scopeItem mode ending tokens).Gives fun entities rest =>
      Laid text (between ending tokens rest) (entities.map .type) := by
  have hannotations := leadingAnnotations_annotated h
  rw [scopeItem]
  split
  · exact .of_error _ _
  · next annotations rest hread =>
    rw [hread] at hannotations
    have hrest := hannotations.suffix
    refine Recorded.Gives.within _ (scopeDeclaration_laid hannotations fun inner hinner hlt => ?_)
    exact hscope inner (hinner.trans hrest) (Nat.lt_of_lt_of_le hlt hrest.length_le)

-- By well-founded recursion, as the scope is read.
theorem scope_laid (mode : ErrorMode) (nested : Bool) (tokens : List Token)
    (h : InText text ending tokens) :
    (scope mode ending nested tokens).Gives fun entities rest =>
      Laid text (between ending tokens rest) (entities.map .type) := by
  match tokens with
  | [] =>
      rw [scope_nil]
      cases nested <;> cases mode
      · exact .of_ok _ _ (Laid.nil _)
      · exact .of_ok _ _ (Laid.nil _)
      · exact .of_ok _ _ (Laid.nil _)
      · exact .of_error _ _
  | token :: rest =>
      by_cases hbrace : token.kind = .rBrace
      · cases nested with
        | true =>
            rw [scope_rBrace mode ending true hbrace]
            exact .of_ok _ _ (Laid.nil _)
        | false =>
            cases mode with
            | fatal =>
                rw [scope_rBrace .fatal ending false hbrace]
                exact .of_error _ _
            | tolerant =>
                have hrest : rest <:+ token :: rest := List.suffix_cons token rest
                have hstays : Reported ending rest _ _ := scope_stays .tolerant false rest
                exact .of_extends (fun _ _ => List.map_append) (scope_unmatched hbrace) (Laid.nil _)
                  (scope_laid .tolerant false rest h.tail) h hrest (List.suffix_refl rest)
                  hstays.suffix
      have hstep := @scopeItem_laid text ending (token :: rest) mode h
        fun inner hinner _ => scope_laid mode true inner (h.suffix hinner)
      have hstays : Reported ending (token :: rest) _ _ :=
        scopeItem_stays fun inner _ => scope_stays mode true inner
      by_cases hmode : mode = .tolerant ∨
          ∃ found, (scopeItem mode ending (token :: rest)).outcome = .ok found
      · have hlength := @resume_length token rest (scopeItem mode ending (token :: rest)).next
        have hnext := Recorded.next_suffix (scopeItem mode ending (token :: rest))
        have hplace := (resume_suffix (hnext.trans hstays.suffix)).trans hnext
        refine .of_extends (fun _ _ => List.map_append) (scope_extends nested hbrace hmode) ?_
          (scope_laid mode nested _ (h.suffix (hplace.trans hstays.suffix))) h hstays.suffix hplace
          (Reported.suffix (scope_stays mode nested _))
        unfold Recorded.found
        cases houtcome : (scopeItem mode ending (token :: rest)).outcome with
        | error error => exact Laid.nil _
        | ok found => exact hstep found houtcome
      · rw [not_or, not_exists] at hmode
        cases mode with
        | tolerant => exact absurd rfl hmode.1
        | fatal =>
            intro entities hentities
            cases houtcome : (scopeItem .fatal ending (token :: rest)).outcome with
            | ok found => exact absurd houtcome (hmode.2 found)
            | error error =>
                rw [(scope_fatal_error nested hbrace houtcome).1] at hentities
                cases hentities
termination_by tokens.length
decreasing_by
  all_goals simp only [List.length_cons]
  all_goals omega

end Scopes

section Headers

-- By induction on the reports: the later ones are at places behind the earlier ones.
theorem Reported.spans {errors : List ParseError} (hreported : Reported ending tokens rest errors)
    (h : InText text ending tokens) :
    (∀ error ∈ errors, error.span.IsRange text ∧
      (spanAt ending tokens).start ≤ error.span.start) ∧
      (errors.map ParseError.span).Pairwise (·.start ≤ ·.start) := by
  induction hreported with
  | nil _ => exact ⟨by simp, .nil⟩
  | @cons tokens place rest error errors hplace hspan _ ih =>
      obtain ⟨hranges, hordered⟩ := ih (h.suffix hplace)
      have hstart := h.start_le hplace
      refine ⟨List.forall_mem_cons.mpr ⟨?_, fun other hmem => ?_⟩,
        List.pairwise_cons.mpr ⟨List.forall_mem_map.mpr fun other hmem => ?_, hordered⟩⟩
      · rw [hspan]
        exact ⟨(h.suffix hplace).isRange, hstart⟩
      · exact ⟨(hranges other hmem).1, hstart.trans (hranges other hmem).2⟩
      · rw [hspan]
        exact (hranges other hmem).2

-- The span of a header reaches from its first token over all that has been taken.
theorem between_le_merge (h : InText text ending tokens) (hrest : rest <:+ tokens) :
    let all := (spanAt ending tokens).merge (spanAt ending rest)
    all.IsRange text ∧ all.start ≤ (between ending tokens rest).start ∧
      (between ending tokens rest).stop ≤ all.stop := by
  refine ⟨h.isRange.merge (h.suffix hrest).isRange, min_le_left _ _, ?_⟩
  calc takenUpTo ending rest
      ≤ (spanAt ending rest).start := takenUpTo_le_start rest
    _ ≤ (spanAt ending rest).stop := (h.suffix hrest).isRange.ordered
    _ ≤ max (spanAt ending tokens).stop (spanAt ending rest).stop := le_max_right _ _

-- All spans of a tree and of the reported errors are ranges of the text. What a declaration
-- contains is inside it, with its annotations, and siblings and errors are in the order of the
-- text.
theorem parse_spans (mode : ErrorMode) (text : List Char) :
    match parse mode text with
    | .error error => error.span.IsRange text
    | .ok parsed =>
      parsed.tree.span.IsRange text ∧
        (∀ entity ∈ parsed.tree.entities, entity.Within text parsed.tree.span) ∧
        (parsed.tree.entities.map Entity.span).Pairwise (·.start ≤ ·.start) ∧
        (∀ error ∈ parsed.recovered, error.span.IsRange text) ∧
        (parsed.recovered.map ParseError.span).Pairwise (·.start ≤ ·.start) := by
  have htext := inText_scan text
  have hlaid := scope_laid mode false _ htext
  have hstays : Reported (scan text).ending _ _ _ := scope_stays mode false (scan text).items
  obtain ⟨hranges, hordered⟩ := hstays.spans htext
  unfold Recorded.errors at hranges hordered
  cases houtcome : (scope mode (scan text).ending false (scan text).items).outcome with
  | error error =>
      rw [houtcome] at hranges
      rw [parse_of_error houtcome]
      exact (hranges error (by simp)).1
  | ok entities =>
      rw [houtcome] at hranges hordered
      rw [parse_of_ok houtcome]
      obtain ⟨hrange, hlower, hupper⟩ := between_le_merge htext hstays.suffix
      obtain ⟨hwithin, hsiblings⟩ := ((hlaid entities houtcome).mono hlower hupper).entities
      exact ⟨hrange, hwithin, hsiblings, fun error hmem => (hranges error hmem).1, hordered⟩

end Headers

end Header

end Reflection
