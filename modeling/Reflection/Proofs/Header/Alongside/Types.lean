import Reflection.Proofs.Header.Alongside.Members

namespace Reflection.Header

variable {border : Border} {ending finish : Token} {tokens others : List Token}

section Names

theorem moreNames_beside {tokens others : List Token} (h : border.Beside tokens others) :
    (moreNames tokens).1 = (moreNames others).1 ∧
      border.Beside (moreNames tokens).2 (moreNames others).2 := by
  match tokens with
  | [] =>
      cases h with
      | nil htail hother => exact ⟨rfl, .nil htail hother⟩
  | separator :: rest =>
      obtain ⟨other, after, rfl, halike, _⟩ := h.next
      by_cases hkind : separator.kind = .colonColon
      · have hrest := h.tail_of_kind hkind (by decide) (by decide)
        cases rest with
        | nil =>
            rw [hrest.eq_nil] at h ⊢
            rw [moreNames, moreNames]
            · exact ⟨rfl, h⟩
            · exact fun _ _ _ h => by cases h
            · exact fun _ _ _ h => by cases h
        | cons name inner =>
            obtain ⟨second, further, rfl, hname, _⟩ := hrest.next
            rw [moreNames, moreNames, ← halike.kind, ← hname.kind, ← hname.word]
            by_cases hident : name.kind = .ident
            · have hinner := hrest.tail_of_kind hident (by decide) (by decide)
              obtain ⟨hnames, hlast⟩ := moreNames_beside hinner
              rw [if_pos ⟨hkind, hident⟩, if_pos ⟨hkind, hident⟩]
              exact ⟨congrArg (name.word :: ·) hnames, hlast⟩
            · rw [if_neg fun hkinds => hident hkinds.2, if_neg fun hkinds => hident hkinds.2]
              exact ⟨rfl, h⟩
      · have hstop : ∀ (first : Token) (list : List Token), first.kind = separator.kind →
            moreNames (first :: list) = ([], first :: list) := by
          intro first list hfirst
          cases list with
          | nil => rw [moreNames]; exact fun _ _ _ h => by cases h
          | cons name inner => rw [moreNames, if_neg fun hkinds => hkind (hfirst ▸ hkinds.1)]
        rw [hstop separator rest rfl, hstop other after halike.kind.symm]
        exact ⟨rfl, h⟩
termination_by tokens.length

theorem qualifiedName_beside (h : border.Beside tokens others) :
    (qualifiedName tokens).1 = (qualifiedName others).1 ∧
      border.Beside (qualifiedName tokens).2 (qualifiedName others).2 := by
  cases tokens with
  | nil =>
      cases h with
      | nil htail hother => exact ⟨rfl, .nil htail hother⟩
  | cons name rest =>
      obtain ⟨other, after, rfl, halike, _⟩ := h.next
      rw [qualifiedName, qualifiedName, ← halike.kind, ← halike.word]
      split
      · next hkind =>
        obtain ⟨hnames, hrest⟩ := moreNames_beside (h.tail_of_kind hkind (by decide) (by decide))
        exact ⟨congrArg (name.word :: ·) hnames, hrest⟩
      · exact ⟨rfl, h⟩

theorem Border.qualifiedName_tail {kind : TokenKind} (hends : border.ends kind) :
    qualifiedName border.tail = ([], border.tail) := by
  have hkind := border.tail_kind kind hends
  cases htail : border.tail with
  | nil => rfl
  | cons token rest =>
      rw [htail, kindAt_cons] at hkind
      rw [qualifiedName, hkind, if_neg (by decide)]

theorem Border.Beside.isFinal (h : border.Beside tokens others) :
    tokens.head?.any isFinal = others.head?.any isFinal := by
  cases h with
  | nil _ _ => rfl
  | cons halike _ _ _ =>
      simp only [List.head?_cons, Option.any_some, Header.isFinal, halike.kind, halike.text]
  | last halike _ => simp only [List.head?_cons, Option.any_some, Header.isFinal, halike.kind, halike.text]

theorem className_beside (h : border.Beside tokens others) :
    (className tokens).1 = (className others).1 ∧
      border.Beside (className tokens).2 (className others).2 := by
  unfold className
  rw [← h.isFinal]
  split
  · exact ⟨rfl, h⟩
  · exact qualifiedName_beside h

theorem skipFinal_beside (h : border.Beside tokens others) :
    border.Beside (skipFinal tokens) (skipFinal others) := by
  unfold skipFinal
  rw [← h.isFinal]
  split
  · next hfinal =>
    have hkind : kindAt tokens = .ident := by
      cases tokens with
      | nil => cases hfinal
      | cons token rest =>
          simp only [List.head?_cons, Option.any_some, isFinal, Bool.and_eq_true,
            decide_eq_true_eq] at hfinal
          exact hfinal.1
    exact h.tail (by rw [hkind]; decide) (by rw [hkind]; decide)
  · exact h

end Names

section Heads

theorem skipBaseClause_tracks {tokens others : List Token} (h : border.Beside tokens others) :
    (skipBaseClause ending tokens).Tracks border id (skipBaseClause finish others) := by
  match tokens with
  | [] =>
      rw [h.eq_nil, skipBaseClause, skipBaseClause]
      exact .inr (.failed rfl (h.eq_nil ▸ h))
  | token :: rest =>
      obtain ⟨other, after, rfl, halike, hrest⟩ := h.next
      rw [skipBaseClause_cons, skipBaseClause_cons, ← halike.kind]
      cases hkind : token.kind with
      | lBrace => exact .inr (.done rfl h)
      | semicolon => exact .inr (.failed (unexpected_unplaced .lBrace h) h)
      | lt =>
          exact (skipAngles_follows 1 (h.tail_of_kind hkind (by decide) (by decide))).tracks.bind
            (skipAngles_suffix ending token 1 rest).length_le
            (fun _ inner => skipBaseClause_suffix ending inner)
            fun _ _ inner _ hle _ hinner => skipBaseClause_tracks hinner
      | lParen | lBracket | attrOpen =>
          have hrest := h.tail_of_kind hkind (by decide) (by decide)
          exact (skipGroup_follows halike h.leads hrest).tracks.bind
            (skipGroup_suffix ending token rest).length_le
            (fun _ inner => skipBaseClause_suffix ending inner)
            fun _ _ inner _ hle _ hinner => skipBaseClause_tracks hinner
      | rBrace =>
          rcases hrest with hrest | ⟨hends, rfl, rfl⟩
          · exact skipBaseClause_tracks hrest
          · exact .inl (Border.lost_of_ends (hkind ▸ hends) (skipBaseClause_suffix ending _))
      | _ => exact skipBaseClause_tracks (h.tail_of_kind hkind (by decide) (by decide))
termination_by tokens.length

theorem skipTemplateArguments_follows {kinds : TokenKind → Prop}
    (h : border.Beside tokens others) :
    (skipTemplateArguments ending tokens).Follows border kinds id
      (skipTemplateArguments finish others) := by
  cases tokens with
  | nil =>
      rw [h.eq_nil]
      exact .beside (.done rfl (h.eq_nil ▸ h))
  | cons token rest =>
      obtain ⟨other, after, rfl, halike, _⟩ := h.next
      rw [skipTemplateArguments, skipTemplateArguments, ← halike.kind]
      split
      · next hkind => exact skipAngles_follows 1 (h.tail_of_kind hkind (by decide) (by decide))
      · exact .beside (.done rfl h)

theorem expect_lBrace_breaks {kind : TokenKind} (hends : border.ends kind) :
    border.Breaks (expect ending .lBrace border.tail) := by
  refine .inr ⟨unexpected ending .lBrace border.tail, border.tail, ?_, Nat.le_refl _⟩
  rw [expect, border.tail_kind kind hends, if_neg (by decide)]

-- No border stands behind the brace that opens a body.
theorem enterBody_follows {kinds : TokenKind → Prop} (h : border.Beside tokens others) :
    (enterBody ending tokens).Follows border kinds id (enterBody finish others) := by
  unfold enterBody
  rw [← h.kindAt_eq]
  split
  · next hkind =>
    have hrest := h.tail (by rw [hkind]; decide) (by rw [hkind]; decide)
    exact (skipBaseClause_tracks hrest).follow hrest (skipBaseClause_suffix ending _)
      (fun _ inner => expect_suffix ending .lBrace inner) (fun _ hends => expect_lBrace_breaks hends)
      fun _ _ _ _ _ _ hinner => .beside (expect_beside hinner (by decide) (by decide))
  · exact .beside (expect_beside h (by decide) (by decide))

-- What is kept of the head of a class.
def ClassOpening.unplaced (opening : ClassOpening) : ClassOpening :=
  { opening with attributes := opening.attributes.map AnnotationBlock.unplaced }

-- The end of a class head behind the name and the template arguments.
def classHeadEnd (ending : Token) (attributes : List AnnotationBlock) (name : List String)
    (tokens : List Token) : Read ClassOpening :=
  if kindAt (skipFinal tokens) = .semicolon then
    .done ⟨attributes, name, false⟩ (skipFinal tokens).tail
  else (enterBody ending (skipFinal tokens)).map fun _ => ⟨attributes, name, true⟩

theorem classOpening_eq_bind :
    classOpening ending tokens = (specifiers ending tokens).bind fun attributes rest =>
      (skipTemplateArguments ending (className rest).2).bind fun _ inner =>
        classHeadEnd ending attributes (className rest).1 inner := rfl

theorem classHeadEnd_suffix (attributes : List AnnotationBlock) (name : List String) :
    (classHeadEnd ending attributes name tokens).rest <:+ tokens := by
  unfold classHeadEnd
  split
  · exact (List.tail_suffix _).trans (skipFinal_suffix tokens)
  · simpa using (enterBody_suffix ending _).trans (skipFinal_suffix tokens)

theorem classHeadEnd_breaks {kind : TokenKind} (hends : border.ends kind)
    (attributes : List AnnotationBlock) (name : List String) :
    border.Breaks (classHeadEnd ending attributes name border.tail) := by
  obtain ⟨token, rest, htail, hkind⟩ := border.tail_eq_cons hends
  rw [htail]
  refine .inr ⟨unexpected ending .lBrace (token :: rest), token :: rest, ?_,
    htail ▸ Nat.le_refl _⟩
  simp [classHeadEnd, isFinal, skipFinal, enterBody, expect, hkind, Read.map]

theorem classHead_breaks {kind : TokenKind} (hends : border.ends kind)
    (attributes : List AnnotationBlock) :
    border.Breaks ((skipTemplateArguments ending (className border.tail).2).bind fun _ inner =>
      classHeadEnd ending attributes (className border.tail).1 inner) := by
  have hkind := border.tail_kind kind hends
  have hname : className border.tail = ([], border.tail) := by
    cases htail : border.tail with
    | nil => rfl
    | cons token rest =>
        rw [htail, kindAt_cons] at hkind
        simp [className, qualifiedName, hkind]
  have harguments : skipTemplateArguments ending border.tail = .done () border.tail := by
    cases htail : border.tail with
    | nil => rfl
    | cons token rest =>
        rw [htail, kindAt_cons] at hkind
        simp [skipTemplateArguments, hkind]
  rw [hname, harguments]
  exact classHeadEnd_breaks hends attributes []

theorem classHeadEnd_ends {attributes further : List AnnotationBlock}
    (hattributes : attributes.map AnnotationBlock.unplaced =
      further.map AnnotationBlock.unplaced) (name : List String)
    (h : border.Beside tokens others) :
    (classHeadEnd ending attributes name tokens).Ends border ClassOpening.unplaced
      (classHeadEnd finish further name others) := by
  have hfinal := skipFinal_beside h
  have hopening : ∀ hasBody, ClassOpening.unplaced ⟨attributes, name, hasBody⟩ =
      ClassOpening.unplaced ⟨further, name, hasBody⟩ := by
    intro hasBody
    simp only [ClassOpening.unplaced, hattributes]
  unfold classHeadEnd
  rw [← hfinal.kindAt_eq]
  split
  · next hkind =>
    cases hfirst : skipFinal tokens with
    | nil =>
        rw [hfirst] at hkind
        cases hkind
    | cons token rest =>
        rw [hfirst] at hfinal
        obtain ⟨other, after, hsecond, _, hrest⟩ := hfinal.next
        rw [hsecond]
        rcases hrest with hrest | ⟨hends, rfl, rfl⟩
        · exact .beside (.done (hopening false) hrest)
        · exact .finished hends trivial (hopening false)
  · exact (enterBody_follows hfinal).map _ _ fun _ _ _ => hopening true

theorem classOpening_ends (h : border.Beside tokens others) :
    (classOpening ending tokens).Ends border ClassOpening.unplaced
      (classOpening finish others) := by
  rw [classOpening_eq_bind, classOpening_eq_bind]
  refine (specifiers_tracks h).follow h (specifiers_suffix ending tokens) (fun attributes rest => ?_)
    (fun _ hends => classHead_breaks hends _) fun first second rest after _ hattributes hrest => ?_
  · exact Read.suffix_bind
      ((skipTemplateArguments_suffix ending _).trans (className_suffix rest))
      fun _ after => classHeadEnd_suffix attributes _
  · obtain ⟨hname, hrest⟩ := className_beside hrest
    rw [← hname]
    exact (skipTemplateArguments_follows hrest).tracks.follow hrest
      (skipTemplateArguments_suffix ending _) (fun _ inner => classHeadEnd_suffix first _)
      (fun _ hends => classHeadEnd_breaks hends first _)
      fun _ _ inner further _ _ hinner => classHeadEnd_ends hattributes _ hinner

end Heads

section Declarators

theorem typeDeclarators_breaks {kind : TokenKind} (hends : border.ends kind)
    (name : Option Token) : border.Breaks (typeDeclarators ending name border.tail) := by
  obtain ⟨token, rest, htail, hkind⟩ := border.tail_eq_cons hends
  rw [htail]
  refine .inr ⟨unexpected ending .semicolon (token :: rest), token :: rest, ?_,
    htail ▸ Nat.le_refl _⟩
  rw [typeDeclarators_cons, hkind]

theorem typeDeclarators_ends {tokens others : List Token} {name second : Option Token}
    (hname : name.map Token.word = second.map Token.word) (h : border.Beside tokens others) :
    (typeDeclarators ending name tokens).Ends border (List.map Token.word)
      (typeDeclarators finish second others) := by
  have hnames : name.toList.map Token.word = second.toList.map Token.word := by
    rw [← Option.toList_map, ← Option.toList_map, hname]
  match tokens with
  | [] =>
      rw [h.eq_nil, typeDeclarators, typeDeclarators]
      exact .beside (.failed rfl (h.eq_nil ▸ h))
  | token :: rest =>
      obtain ⟨other, after, rfl, halike, hrest⟩ := h.next
      rw [typeDeclarators_cons, typeDeclarators_cons, ← halike.kind]
      have hsuffix := fun inner => typeDeclarators_suffix ending name inner
      cases hkind : token.kind with
      | semicolon =>
          rcases hrest with hrest | ⟨hends, rfl, rfl⟩
          · exact .beside (.done hnames hrest)
          · exact .finished hends trivial hnames
      | comma =>
          have hmore : (typeDeclarators ending none rest).Ends border (List.map Token.word)
              (typeDeclarators finish none after) :=
            typeDeclarators_ends rfl (h.tail_of_kind hkind (by decide) (by decide))
          refine hmore.map _ _ fun first further hvalue => ?_
          rw [List.map_append, List.map_append, hnames, hvalue]
      | rBrace => exact .beside (.failed (unexpected_unplaced .semicolon h) h)
      | ident =>
          exact typeDeclarators_ends (congrArg some halike.word)
            (h.tail_of_kind hkind (by decide) (by decide))
      | eq | colon =>
          have hrest := h.tail_of_kind hkind (by decide) (by decide)
          exact (skipInitializer_tracks hrest).follow hrest (skipInitializer_suffix ending rest)
            (fun _ inner => hsuffix inner) (fun _ hends => typeDeclarators_breaks hends name)
            fun _ _ inner _ hle _ hinner => typeDeclarators_ends hname hinner
      | lParen | lBrace | lBracket | attrOpen =>
          have hrest := h.tail_of_kind hkind (by decide) (by decide)
          exact (skipGroup_follows halike h.leads hrest).tracks.follow hrest
            (skipGroup_suffix ending token rest) (fun _ inner => hsuffix inner)
            (fun _ hends => typeDeclarators_breaks hends name)
            fun _ _ inner _ hle _ hinner => typeDeclarators_ends hname hinner
      | _ => exact typeDeclarators_ends hname (h.tail_of_kind hkind (by decide) (by decide))
termination_by tokens.length

end Declarators

section Enumerators

theorem skipValue_tracks (h : border.Beside tokens others) :
    (skipValue ending tokens).Tracks border id (skipValue finish others) := by
  unfold skipValue
  rw [← h.kindAt_eq]
  split
  · next hkind =>
    exact skipInitializer_tracks (h.tail (by rw [hkind]; decide) (by rw [hkind]; decide))
  · exact .inr (.done rfl h)

theorem enumeratorRest_tracks {annotations further : List AnnotationBlock} {name second : Token}
    (hannotations : annotations.map AnnotationBlock.unplaced =
      further.map AnnotationBlock.unplaced)
    (hname : name.word = second.word) (h : border.Beside tokens others) :
    (enumeratorRest ending annotations name tokens).Tracks border
      (Prod.map EnumeratorDecl.unplaced id) (enumeratorRest finish further second others) := by
  refine (specifiers_tracks h).bind (specifiers_suffix ending tokens).length_le
    (fun attributes rest => ?_) fun attributes blocks rest after _ hattributes hrest => ?_
  · refine Read.suffix_bind (skipValue_suffix ending rest) fun _ after => ?_
    exact (trailingDoc_suffix _).trans (skipOne_suffix .comma after)
  · refine (skipValue_tracks hrest).bind (skipValue_suffix ending rest).length_le
      (fun _ inner => (trailingDoc_suffix _).trans (skipOne_suffix .comma inner))
      fun _ _ inner last _ _ hinner => ?_
    have hcomma : border.Beside (skipOne .comma inner) (skipOne .comma last) :=
      hinner.skipOne (by decide) (by decide)
    obtain ⟨hdoc, hlast⟩ := trailingDoc_beside hcomma
    have hdocs := congrArg Option.toList hdoc
    rw [Option.toList_map, Option.toList_map] at hdocs
    refine .inr (.done ?_ hlast)
    simp only [Prod.map, EnumeratorDecl.unplaced, List.map_append, hname, hannotations, hattributes,
      hdocs, hinner.kindAt_eq, id]

theorem enumerator_tracks {annotations further : List AnnotationBlock}
    (hannotations : annotations.map AnnotationBlock.unplaced =
      further.map AnnotationBlock.unplaced) (h : border.Beside tokens others) :
    (enumerator ending annotations tokens).Tracks border (Prod.map EnumeratorDecl.unplaced id)
      (enumerator finish further others) := by
  cases tokens with
  | nil =>
      rw [h.eq_nil]
      exact .inr (.failed rfl (h.eq_nil ▸ h))
  | cons name rest =>
      obtain ⟨other, after, rfl, halike, _⟩ := h.next
      rw [enumerator, enumerator, ← halike.kind]
      split
      · next hkind =>
        exact enumeratorRest_tracks hannotations halike.word
          (h.tail_of_kind hkind (by decide) (by decide))
      · exact .inr (.failed (unexpected_unplaced .ident h) h)

theorem enumeratorsFrom_suffix (annotations : List AnnotationBlock) (tokens : List Token) :
    (if kindAt tokens = .rBrace then Read.done [] tokens
      else (enumerator ending annotations tokens).bind fun read after =>
        if read.2 then (enumerators ending after).map (read.1 :: ·)
        else .done [read.1] after).rest <:+ tokens := by
  split
  · exact List.suffix_refl tokens
  · refine Read.suffix_bind (enumerator_suffix ending annotations tokens) fun read after => ?_
    split
    · simpa using enumerators_suffix ending after
    · exact List.suffix_refl after

theorem enumerators_tracks {tokens others : List Token} (h : border.Beside tokens others) :
    (enumerators ending tokens).Tracks border (List.map EnumeratorDecl.unplaced)
      (enumerators finish others) := by
  rw [enumerators_eq, enumerators_eq]
  refine (leadingAnnotations_follows h).tracks.bind (leadingAnnotations_suffix ending tokens).length_le
    enumeratorsFrom_suffix fun annotations further rest after hle hannotations hrest => ?_
  rw [← hrest.kindAt_eq]
  split
  · exact .inr (.done rfl hrest)
  · rcases @enumerator_tracks border ending finish _ _ _ _ hannotations hrest with
      hlost | hbeside
    · refine .inl (hlost.of_suffix (Read.rest_bind_suffix fun read inner => ?_))
      split
      · simpa using enumerators_suffix ending inner
      · exact List.suffix_refl inner
    · cases hread : enumerator ending annotations rest with
      | failed error inner =>
          rw [hread] at hbeside
          generalize enumerator finish further after = other at hbeside ⊢
          cases hbeside with
          | failed herror hinner => exact .inr (.failed herror hinner)
      | done read inner =>
          have hlt := enumerator_length hread
          rw [hread] at hbeside
          generalize enumerator finish further after = other at hbeside ⊢
          cases hbeside with
          | @done _ second _ last hvalue hinner =>
              obtain ⟨hdecl, hmore⟩ := Prod.mk.inj hvalue
              dsimp only [Read.bind_done, id] at hmore ⊢
              rw [← hmore]
              split
              · refine (enumerators_tracks hinner).map _ _ fun decls others hdecls => ?_
                rw [List.map_cons, List.map_cons, hdecl, hdecls]
              · exact .inr (.done (congrArg (fun decl => [decl]) hdecl) hinner)
termination_by tokens.length

theorem skipUnderlyingType_tracks {tokens others : List Token} (h : border.Beside tokens others) :
    (skipUnderlyingType ending tokens).Tracks border id (skipUnderlyingType finish others) := by
  match tokens with
  | [] =>
      rw [h.eq_nil, skipUnderlyingType, skipUnderlyingType]
      exact .inr (.failed rfl (h.eq_nil ▸ h))
  | token :: rest =>
      obtain ⟨other, after, rfl, halike, hrest⟩ := h.next
      rw [skipUnderlyingType, skipUnderlyingType, ← halike.kind]
      cases hkind : token.kind with
      | lBrace | semicolon => exact .inr (.done rfl h)
      | rBrace =>
          rcases hrest with hrest | ⟨hends, rfl, rfl⟩
          · exact skipUnderlyingType_tracks hrest
          · exact .inl (Border.lost_of_ends (hkind ▸ hends) (skipUnderlyingType_suffix ending _))
      | _ => exact skipUnderlyingType_tracks (h.tail_of_kind hkind (by decide) (by decide))
termination_by tokens.length

end Enumerators

section Enums

theorem expect_rBrace_follows (h : border.Beside tokens others) :
    (expect ending .rBrace tokens).Follows border (· = .rBrace) id
      (expect finish .rBrace others) := by
  unfold expect
  rw [← h.kindAt_eq]
  split
  · next hkind =>
    cases h with
    | nil _ _ => cases hkind
    | cons _ _ _ hrest => exact .beside (.done rfl hrest)
    | last _ hends => exact .finished hends hkind rfl
  · exact .beside (.failed (unexpected_unplaced .rBrace h) h)

theorem expect_rBrace_length_lt (hkind : kindAt tokens = .rBrace) :
    (expect ending .rBrace tokens).rest.length < tokens.length := by
  rw [expect, if_pos hkind]
  cases tokens with
  | nil => cases hkind
  | cons token rest => exact Nat.lt_succ_self _

theorem enumEnd_suffix (describe : Bool → List EnumeratorDecl → List Token → EnumDecl)
    (decls : List EnumeratorDecl) (tokens : List Token) :
    ((expect ending .rBrace tokens).bind fun _ rest =>
      (typeDeclarators ending none rest).map fun names => (describe true decls rest, names)).rest <:+
        tokens := by
  refine Read.suffix_bind (expect_suffix ending .rBrace tokens) fun _ after => ?_
  simpa using typeDeclarators_suffix ending none after

theorem enumBody_ends {describe further : Bool → List EnumeratorDecl → List Token → EnumDecl}
    (hdescribe : ∀ isDefinition decls more rest others,
      decls.map EnumeratorDecl.unplaced = more.map EnumeratorDecl.unplaced →
      (describe isDefinition decls rest).unplaced = (further isDefinition more others).unplaced)
    (h : border.Beside tokens others) :
    (enumBody ending describe tokens).Ends border
      (Prod.map EnumDecl.unplaced (List.map Token.word)) (enumBody finish further others) := by
  refine (enumerators_tracks h).follow h (enumerators_suffix ending tokens)
    (enumEnd_suffix describe) (fun decls hends => .inl ?_)
    fun decls more rest after _ hdecls hrest => ?_
  · have hlt : (expect ending .rBrace border.tail).rest.length < border.tail.length :=
      expect_rBrace_length_lt (border.tail_kind _ hends)
    refine Nat.lt_of_le_of_lt ?_ hlt
    cases expect ending .rBrace border.tail with
    | done _ inner => simpa using (typeDeclarators_suffix ending none inner).length_le
    | failed error inner => exact Nat.le_refl _
  · refine (expect_rBrace_follows hrest).tracks.follow hrest (expect_suffix ending .rBrace rest)
      (fun _ inner => ?_) (fun _ hends => ?_) fun _ _ inner last _ _ hinner => ?_
    · simpa using typeDeclarators_suffix ending none inner
    · rcases @typeDeclarators_breaks border ending _ hends none with hlt | ⟨error, rest, hread, hle⟩
      · exact .inl (by rwa [Read.rest_map])
      · exact .inr ⟨error, rest, by rw [hread]; rfl, hle⟩
    · refine (typeDeclarators_ends rfl hinner).map _ _ fun names words hnames => ?_
      exact Prod.ext (hdescribe true decls more inner last hdecls) hnames

-- The end of an enum behind its underlying type.
def enumRest (ending : Token) (describe : Bool → List EnumeratorDecl → List Token → EnumDecl)
    (tokens : List Token) : Read (EnumDecl × List Token) :=
  if kindAt tokens = .semicolon then .done (describe false [] tokens.tail, []) tokens.tail
  else (expect ending .lBrace tokens).bind fun _ rest => enumBody ending describe rest

-- The end of an enum behind its name.
def enumNamed (ending : Token) (describe : Bool → List EnumeratorDecl → List Token → EnumDecl)
    (tokens : List Token) : Read (EnumDecl × List Token) :=
  (if kindAt tokens = .colon then skipUnderlyingType ending tokens.tail else .done () tokens).bind
    fun _ rest => enumRest ending describe rest

theorem enumRest_suffix (describe : Bool → List EnumeratorDecl → List Token → EnumDecl)
    (tokens : List Token) : (enumRest ending describe tokens).rest <:+ tokens := by
  unfold enumRest
  split
  · exact List.tail_suffix tokens
  · exact Read.suffix_bind (expect_suffix ending .lBrace tokens)
      fun _ inner => enumBody_suffix ending describe inner

theorem enumNamed_suffix (describe : Bool → List EnumeratorDecl → List Token → EnumDecl)
    (tokens : List Token) : (enumNamed ending describe tokens).rest <:+ tokens := by
  refine Read.suffix_bind ?_ fun _ inner => enumRest_suffix describe inner
  split
  · exact (skipUnderlyingType_suffix ending _).trans (List.tail_suffix tokens)
  · exact List.suffix_refl tokens

theorem enumRest_breaks {kind : TokenKind} (hends : border.ends kind)
    (describe : Bool → List EnumeratorDecl → List Token → EnumDecl) :
    border.Breaks (enumRest ending describe border.tail) := by
  have hkind := border.tail_kind kind hends
  refine .inr ⟨unexpected ending .lBrace border.tail, border.tail, ?_, Nat.le_refl _⟩
  rw [enumRest, hkind, if_neg (by decide), expect, hkind, if_neg (by decide), Read.bind_failed]

theorem enumNamed_breaks {kind : TokenKind} (hends : border.ends kind)
    (describe : Bool → List EnumeratorDecl → List Token → EnumDecl) :
    border.Breaks (enumNamed ending describe border.tail) := by
  rw [enumNamed, border.tail_kind kind hends, if_neg (by decide), Read.bind_done]
  exact enumRest_breaks hends describe

theorem enumRest_ends {describe further : Bool → List EnumeratorDecl → List Token → EnumDecl}
    (hdescribe : ∀ isDefinition decls more rest others,
      decls.map EnumeratorDecl.unplaced = more.map EnumeratorDecl.unplaced →
      (describe isDefinition decls rest).unplaced = (further isDefinition more others).unplaced)
    (h : border.Beside tokens others) :
    (enumRest ending describe tokens).Ends border
      (Prod.map EnumDecl.unplaced (List.map Token.word)) (enumRest finish further others) := by
  have hforward : ∀ rest others, ((describe false [] rest).unplaced, ([] : List String)) =
      ((further false [] others).unplaced, []) :=
    fun rest others => Prod.ext (hdescribe false [] [] rest others rfl) rfl
  unfold enumRest
  rw [← h.kindAt_eq]
  split
  · next hkind =>
    cases h with
    | nil _ _ => cases hkind
    | cons _ _ _ hrest => exact .beside (.done (hforward _ _) hrest)
    | last _ hends => exact .finished hends trivial (hforward _ _)
  · exact (expect_beside h (by decide) (by decide)).follow (expect_suffix ending .lBrace _).length_le
      fun _ _ inner _ _ _ hinner => enumBody_ends hdescribe hinner

theorem enumNamed_ends {describe further : Bool → List EnumeratorDecl → List Token → EnumDecl}
    (hdescribe : ∀ isDefinition decls more rest others,
      decls.map EnumeratorDecl.unplaced = more.map EnumeratorDecl.unplaced →
      (describe isDefinition decls rest).unplaced = (further isDefinition more others).unplaced)
    (h : border.Beside tokens others) :
    (enumNamed ending describe tokens).Ends border
      (Prod.map EnumDecl.unplaced (List.map Token.word)) (enumNamed finish further others) := by
  unfold enumNamed
  rw [← h.kindAt_eq]
  split
  · next hkind =>
    have hrest := h.tail (by rw [hkind]; decide) (by rw [hkind]; decide)
    exact (skipUnderlyingType_tracks hrest).follow hrest (skipUnderlyingType_suffix ending _)
      (fun _ inner => enumRest_suffix describe inner) (fun _ hends => enumRest_breaks hends describe)
      fun _ _ inner _ _ _ hinner => enumRest_ends hdescribe hinner
  · exact enumRest_ends hdescribe h

-- An enum declaration as its readers one after another.
theorem enumDeclaration_eq_bind (annotations : List AnnotationBlock) (keyword : Token) :
    enumDeclaration ending annotations keyword tokens =
      (specifiers ending
        (if kindAt tokens = .classKw ∨ kindAt tokens = .structKw then tokens.tail
          else tokens)).bind fun attributes after =>
        enumNamed ending (fun isDefinition decls rest =>
          ⟨joinName (qualifiedName after).1,
            kindAt tokens = .classKw ∨ kindAt tokens = .structKw, isDefinition,
            annotations ++ attributes, decls, spanFrom ending keyword.span rest⟩)
          (qualifiedName after).2 := rfl

theorem enumDeclaration_ends {annotations further : List AnnotationBlock} {keyword other : Token}
    (hannotations : annotations.map AnnotationBlock.unplaced =
      further.map AnnotationBlock.unplaced) (h : border.Beside tokens others) :
    (enumDeclaration ending annotations keyword tokens).Ends border
      (Prod.map EnumDecl.unplaced (List.map Token.word))
      (enumDeclaration finish further other others) := by
  have hscoped : border.Beside
      (if kindAt tokens = .classKw ∨ kindAt tokens = .structKw then tokens.tail else tokens)
      (if kindAt tokens = .classKw ∨ kindAt tokens = .structKw then others.tail else others) := by
    split
    · next hkind =>
      refine h.tail ?_ ?_ <;> rcases hkind with hkind | hkind <;> rw [hkind] <;> decide
    · exact h
  rw [enumDeclaration_eq_bind, enumDeclaration_eq_bind, ← h.kindAt_eq]
  refine (specifiers_tracks hscoped).follow hscoped (specifiers_suffix ending _)
    (fun attributes rest => (enumNamed_suffix _ _).trans (qualifiedName_suffix rest))
    (fun attributes hends => ?_) fun attributes more rest after _ hattributes hrest => ?_
  · rw [Border.qualifiedName_tail hends]
    exact enumNamed_breaks hends _
  · obtain ⟨hname, hrest⟩ := qualifiedName_beside hrest
    rw [← hname]
    refine enumNamed_ends (fun _ decls others _ _ hdecls => ?_) hrest
    simp only [EnumDecl.unplaced, List.map_append, hannotations, hattributes, hdecls]

end Enums

end Reflection.Header
