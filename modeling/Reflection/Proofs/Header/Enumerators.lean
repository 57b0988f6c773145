import Reflection.Proofs.Header.Members.Headers
import Reflection.Proofs.Header.Members.Parts

namespace Reflection.Header

variable {ending : Token}

section Forms

-- The value of an enumerator.
structure EnumeratorValue where
  equals : Token
  value : List Token
  equals_kind : equals.kind = .eq
  isValue : Value value
  -- a comment behind the value is no part of it
  unmarked : ∀ token ∈ value, isTrailingDoc token = false

def EnumeratorValue.tokens (value : EnumeratorValue) : List Token := value.equals :: value.value

structure EnumeratorForm where
  leading : List Leading
  name : Token
  specifiers : List Specifier
  value : Option EnumeratorValue
  trailing : Option TrailingDoc
  name_kind : name.kind = .ident
  -- consecutive comment lines are one annotation
  runs : List.IsChain (fun one next => one.isDocs = true → next.isDocs = false) leading

namespace EnumeratorForm

variable (form : EnumeratorForm)

def trailingTokens : List Token := form.trailing.toList.map TrailingDoc.token

def valueTokens : List Token := form.value.toList.flatMap EnumeratorValue.tokens

-- The tokens of an enumerator in front of its comma and its comment.
def tokens : List Token :=
  form.leading.flatMap Leading.tokens ++
    form.name :: (form.specifiers.flatMap Specifier.tokens ++ form.valueTokens)

-- The annotations in front of the comment.
def blocks : List AnnotationBlock :=
  form.leading.map Leading.block ++ form.specifiers.flatMap Specifier.blocks

-- The enumerator that is declared, without its place.
def decl : EnumeratorDecl :=
  ⟨form.name.word, form.blocks ++ form.trailing.toList.map TrailingDoc.block, .none⟩

end EnumeratorForm

-- An enumerator with the comma behind it.
structure SeparatedForm where
  form : EnumeratorForm
  comma : Token
  -- does the comment stand in front of the comma?
  trailingFirst : Bool
  comma_kind : comma.kind = .comma

namespace SeparatedForm

variable (separated : SeparatedForm)

def tokens : List Token :=
  separated.form.tokens ++
    if separated.trailingFirst then separated.form.trailingTokens ++ [separated.comma]
    else separated.comma :: separated.form.trailingTokens

-- Is there a comment in front of the comma?
def misplaced : Bool := separated.trailingFirst && separated.form.trailing.isSome

end SeparatedForm

-- What stands between the braces of an enum.
structure EnumeratorList where
  separated : List SeparatedForm
  -- without a comma behind it
  last : Option EnumeratorForm

namespace EnumeratorList

variable (list : EnumeratorList)

def tokens : List Token :=
  list.separated.flatMap SeparatedForm.tokens ++
    list.last.toList.flatMap fun form => form.tokens ++ form.trailingTokens

def decls : List EnumeratorDecl :=
  (list.separated.map SeparatedForm.form ++ list.last.toList).map EnumeratorForm.decl

-- Is there a comment in front of a comma, or behind the value of the last enumerator?
def misplaced : Bool :=
  list.separated.any SeparatedForm.misplaced ||
    list.last.any fun form => form.trailing.isSome && form.value.isSome

end EnumeratorList

end Forms

section Reading

theorem Value.append {first second : List Token} (hfirst : Value first) (hsecond : Value second) :
    Value (first ++ second) := by
  induction hfirst with
  | nil => exact hsecond
  | token hkind hopen hclose _ ih => exact .token hkind hopen hclose ih
  | group hgroup _ ih =>
      rw [List.append_assoc]
      exact .group hgroup ih

theorem trailingDoc_of_not {token : Token} (h : isTrailingDoc token = false) (rest : List Token) :
    trailingDoc (token :: rest) = (none, token :: rest) := by
  rw [trailingDoc, if_neg (by simp [h])]

namespace EnumeratorForm

variable (form : EnumeratorForm)

-- An enumerator does not begin like a comment behind another one.
theorem trailingDoc_before (rest : List Token) :
    trailingDoc (form.tokens ++ rest) = (none, form.tokens ++ rest) := by
  have hname : isTrailingDoc form.name = false := by simp [isTrailingDoc, form.name_kind]
  unfold tokens
  cases form.leading with
  | nil => exact trailingDoc_of_not hname _
  | cons annotation leading =>
      cases annotation with
      | docs first more hdocs =>
          exact trailingDoc_of_not (isTrailingDoc_of_leading (hdocs first List.mem_cons_self)) _
      | attributed attributes =>
          refine trailingDoc_of_not ?_ _
          simp [isTrailingDoc, attributes.opening_kind]

theorem kindAt_values {behind : List Token}
    (h : kindAt behind ∉ [.attrOpen, .alignasKw]) :
    kindAt (form.valueTokens ++ behind) ∉ [.attrOpen, .alignasKw] := by
  unfold valueTokens
  cases form.value with
  | none => exact h
  | some value =>
      rw [Option.toList_some, List.flatMap_singleton, EnumeratorValue.tokens, List.cons_append,
        kindAt_cons, value.equals_kind]
      decide

theorem skipValue_before {behind : List Token} (h : kindAt behind ∈ [.comma, .rBrace]) :
    skipValue ending (form.valueTokens ++ behind) = .done () behind := by
  unfold valueTokens
  cases form.value with
  | none =>
      refine if_neg fun heq => ?_
      rw [Option.toList_none, List.flatMap_nil, List.nil_append] at heq
      simp [heq] at h
  | some value =>
      have hbehind : kindAt behind ∈ [.comma, .semicolon, .rBrace] := by
        simp only [List.mem_cons] at h ⊢
        tauto
      have hskip := @skipInitializer_before ending _ value.isValue _ hbehind
      rw [Option.toList_some, List.flatMap_singleton, EnumeratorValue.tokens, List.cons_append,
        skipValue, kindAt_cons, if_pos value.equals_kind, List.tail_cons, hskip]

-- A value takes the comment behind it as a part of itself.
theorem skipValue_doc (h : form.value.isSome) (doc : TrailingDoc) {behind : List Token}
    (hbehind : kindAt behind ∈ [.comma, .rBrace]) :
    skipValue ending (form.valueTokens ++ doc.token :: behind) = .done () behind := by
  obtain ⟨value, hvalue⟩ := Option.isSome_iff_exists.mp h
  have hkind := doc.kind
  have hmore : Value (value.value ++ [doc.token]) :=
    value.isValue.append (.token (by simp [hkind]) (by simp [hkind, TokenKind.isOpen])
      (by simp [hkind, TokenKind.isClose]) .nil)
  have hstops : kindAt behind ∈ [.comma, .semicolon, .rBrace] := by
    simp only [List.mem_cons] at hbehind ⊢
    tauto
  have hskip := @skipInitializer_before ending _ hmore _ hstops
  rw [List.append_assoc, List.singleton_append] at hskip
  rw [valueTokens, hvalue, Option.toList_some, List.flatMap_singleton, EnumeratorValue.tokens,
    List.cons_append, skipValue, kindAt_cons, if_pos value.equals_kind, List.tail_cons, hskip]

theorem skipValue_none (h : form.value = none) {token : Token} (htoken : token.kind ≠ .eq)
    (behind : List Token) :
    skipValue ending (form.valueTokens ++ token :: behind) = .done () (token :: behind) := by
  rw [valueTokens, h]
  exact if_neg htoken

-- The enumerator that is read up to `after`, with the comment found there.
def found (after : List Token) (span : Span) : EnumeratorDecl :=
  ⟨form.name.word, form.blocks ++ (trailingDoc (skipOne .comma after)).1.toList, span⟩

-- Behind an enumerator and its value, a comma decides whether there are more.
theorem enumerators_form {behind after : List Token}
    (hbehind : kindAt behind ∉ [.attrOpen, .alignasKw])
    (hvalue : skipValue ending (form.valueTokens ++ behind) = .done () after) :
    ∃ span, enumerators ending (form.tokens ++ behind) =
      if kindAt after = .comma then
        (enumerators ending (trailingDoc (skipOne .comma after)).2).map (form.found after span :: ·)
      else .done [form.found after span] (trailingDoc (skipOne .comma after)).2 := by
  have hname : form.name.kind ∉ [.docComment, .attrOpen] := by simp [form.name_kind]
  have hspecifiers : Header.specifiers ending
      (form.specifiers.flatMap Specifier.tokens ++ (form.valueTokens ++ behind)) =
        .done (form.specifiers.flatMap Specifier.blocks) (form.valueTokens ++ behind) := by
    rw [specifiers_append, specifiers_stop (form.kindAt_values hbehind), Read.map,
      List.append_nil]
  refine ⟨spanFrom ending form.name.span after, ?_⟩
  rw [tokens, List.append_assoc, List.cons_append, List.append_assoc, enumerators_eq,
    leadingAnnotations_leading form.runs hname, Read.bind_done, kindAt_cons, form.name_kind,
    if_neg (by decide), enumerator, if_pos form.name_kind, enumeratorRest, hspecifiers,
    Read.bind_done, hvalue]
  simp only [Read.bind_done, decide_eq_true_eq]
  rfl

-- Behind a comma the comment is found.
theorem found_comma {comma : Token} (hcomma : comma.kind = .comma) {next : List Token}
    (hnext : trailingDoc next = (none, next)) (span : Span) :
    form.found (comma :: (form.trailingTokens ++ next)) span = { form.decl with span := span } ∧
      (trailingDoc (skipOne .comma (comma :: (form.trailingTokens ++ next)))).2 = next := by
  have hskip : skipOne .comma (comma :: (form.trailingTokens ++ next)) =
      form.trailingTokens ++ next := if_pos hcomma
  have hdoc := trailingDoc_tokens form.trailing hnext
  rw [found, hskip, trailingTokens, hdoc, decl]
  cases form.trailing <;> exact ⟨rfl, rfl⟩

-- Without its comment an enumerator is another one.
theorem unplaced_ne (h : form.trailing.isSome) {decl : EnumeratorDecl}
    (hdecl : decl.annotations = form.blocks) : decl.unplaced ≠ form.decl.unplaced := by
  intro hsame
  obtain ⟨doc, hdoc⟩ := Option.isSome_iff_exists.mp h
  have hlength := congrArg (fun decl => decl.annotations.length) hsame
  simp [EnumeratorDecl.unplaced, EnumeratorForm.decl, hdecl, hdoc] at hlength

-- The value of the last enumerator takes its comment.
theorem enumerators_last_lost {closing : Token} (hclosing : closing.kind = .rBrace)
    (htrailing : form.trailing.isSome) (hvalue : form.value.isSome) (rest : List Token) :
    ∃ decl, decl.annotations = form.blocks ∧
      enumerators ending (form.tokens ++ (form.trailingTokens ++ closing :: rest)) =
        .done [decl] (closing :: rest) := by
  obtain ⟨doc, hdoc⟩ := Option.isSome_iff_exists.mp htrailing
  have hkind : kindAt (closing :: rest) ∈ [.comma, .rBrace] := by simp [hclosing]
  have hskip : skipOne .comma (closing :: rest) = closing :: rest := if_neg (by simp [hclosing])
  have hnone : trailingDoc (closing :: rest) = (none, closing :: rest) :=
    trailingDoc_of_not (by simp [isTrailingDoc, hclosing]) rest
  obtain ⟨span, hread⟩ := @enumerators_form ending form (doc.token :: closing :: rest) _
    (by simp [doc.kind]) (form.skipValue_doc hvalue doc hkind)
  rw [if_neg (by simp [hclosing]), hskip, hnone] at hread
  refine ⟨form.found (closing :: rest) span, ?_, ?_⟩
  · rw [found, hskip, hnone]
    exact List.append_nil _
  · rw [trailingTokens, hdoc]
    exact hread

-- The last enumerator, unless it has both a value and a comment.
theorem enumerators_last {closing : Token} (hclosing : closing.kind = .rBrace)
    (h : (form.trailing.isSome && form.value.isSome) = false) (rest : List Token) :
    ∃ span, enumerators ending (form.tokens ++ (form.trailingTokens ++ closing :: rest)) =
      .done [{ form.decl with span := span }] (closing :: rest) := by
  have hkind : kindAt (closing :: rest) ∈ [.comma, .rBrace] := by simp [hclosing]
  have hnone : trailingDoc (closing :: rest) = (none, closing :: rest) :=
    trailingDoc_of_not (by simp [isTrailingDoc, hclosing]) rest
  cases htrailing : form.trailing with
  | none =>
      obtain ⟨span, hread⟩ := form.enumerators_form (by simp [hclosing])
        (@skipValue_before ending form _ hkind)
      have hskip : skipOne .comma (closing :: rest) = closing :: rest := if_neg (by simp [hclosing])
      rw [if_neg (by simp [hclosing]), found, hskip, hnone] at hread
      refine ⟨span, ?_⟩
      simpa [trailingTokens, htrailing, decl] using hread
  | some doc =>
      have hvalue : form.value = none := by simpa [htrailing] using h
      have hdoc := doc.kind
      obtain ⟨span, hread⟩ := @enumerators_form ending form (doc.token :: closing :: rest) _
        (by simp [hdoc]) (form.skipValue_none hvalue (by simp [hdoc]) _)
      have hskip : skipOne .comma (doc.token :: closing :: rest) = doc.token :: closing :: rest :=
        if_neg (by simp [hdoc])
      have hfound : trailingDoc (doc.token :: closing :: rest) =
          (some doc.block, closing :: rest) := if_pos doc.isTrailing
      rw [if_neg (by simp [hdoc]), found, hskip, hfound] at hread
      refine ⟨span, ?_⟩
      simpa [trailingTokens, htrailing, decl] using hread

end EnumeratorForm

namespace SeparatedForm

variable (separated : SeparatedForm) {next : List Token}

theorem tokens_append (h : separated.misplaced = false) (next : List Token) :
    separated.tokens ++ next = separated.form.tokens ++
      separated.comma :: (separated.form.trailingTokens ++ next) := by
  rw [tokens, List.append_assoc]
  cases hfirst : separated.trailingFirst with
  | false => rfl
  | true =>
      have hnone : separated.form.trailing = none := by simpa [misplaced, hfirst] using h
      simp [EnumeratorForm.trailingTokens, hnone]

theorem kindAt_comma (more : List Token) :
    kindAt (separated.comma :: more) ∈ [.comma, .rBrace] := by simp [separated.comma_kind]

-- Behind the comma and the comment, reading goes on.
theorem enumerators_placed (h : separated.misplaced = false)
    (hnext : trailingDoc next = (none, next)) :
    ∃ span, enumerators ending (separated.tokens ++ next) =
      (enumerators ending next).map ({ separated.form.decl with span := span } :: ·) := by
  obtain ⟨span, hread⟩ := separated.form.enumerators_form (by simp [separated.comma_kind])
    (@EnumeratorForm.skipValue_before ending separated.form _
      (separated.kindAt_comma (separated.form.trailingTokens ++ next)))
  obtain ⟨hfound, hbehind⟩ := separated.form.found_comma separated.comma_kind hnext span
  rw [if_pos (by simp [separated.comma_kind]), hfound, hbehind] at hread
  exact ⟨span, by rw [separated.tokens_append h, hread]⟩

-- A comment in front of the comma ends the list, or is lost in the value.
theorem enumerators_misplaced (h : separated.misplaced = true)
    (hnext : trailingDoc next = (none, next)) :
    (∃ decl, decl.annotations = separated.form.blocks ∧
      enumerators ending (separated.tokens ++ next) =
        (enumerators ending next).map (decl :: ·)) ∨
    ∃ decls, enumerators ending (separated.tokens ++ next) =
      .done decls (separated.comma :: next) := by
  obtain ⟨hfirst, htrailing⟩ := Bool.and_eq_true_iff.mp h
  obtain ⟨doc, hdoc⟩ := Option.isSome_iff_exists.mp htrailing
  have hkind := doc.kind
  have htokens : separated.tokens ++ next =
      separated.form.tokens ++ doc.token :: separated.comma :: next := by
    simp [tokens, hfirst, EnumeratorForm.trailingTokens, hdoc]
  rw [htokens]
  cases hvalue : separated.form.value with
  | none =>
      right
      obtain ⟨span, hread⟩ := @EnumeratorForm.enumerators_form ending separated.form
        (doc.token :: separated.comma :: next) _ (by simp [hkind])
        (separated.form.skipValue_none hvalue (by simp [hkind]) _)
      have hskip : skipOne .comma (doc.token :: separated.comma :: next) =
          doc.token :: separated.comma :: next := if_neg (by simp [hkind])
      have hfound : trailingDoc (doc.token :: separated.comma :: next) =
          (some doc.block, separated.comma :: next) := if_pos doc.isTrailing
      rw [if_neg (by simp [hkind]), hskip, hfound] at hread
      exact ⟨_, hread⟩
  | some value =>
      left
      obtain ⟨span, hread⟩ := @EnumeratorForm.enumerators_form ending separated.form
        (doc.token :: separated.comma :: next) _ (by simp [hkind])
        (separated.form.skipValue_doc (by simp [hvalue]) doc (separated.kindAt_comma next))
      have hskip : skipOne .comma (separated.comma :: next) = next := if_pos separated.comma_kind
      rw [if_pos (by simp [separated.comma_kind]), hskip, hnext] at hread
      refine ⟨_, ?_, hread⟩
      rw [EnumeratorForm.found, hskip, hnext]
      exact List.append_nil _

end SeparatedForm

namespace EnumeratorList

variable {closing : Token} (rest : List Token)

theorem tokens_cons (first : SeparatedForm) (separated : List SeparatedForm)
    (last : Option EnumeratorForm) (rest : List Token) :
    (EnumeratorList.mk (first :: separated) last).tokens ++ rest =
      first.tokens ++ ((EnumeratorList.mk separated last).tokens ++ rest) := by
  simp [tokens]

theorem trailingDoc_before (list : EnumeratorList) (hclosing : closing.kind = .rBrace) :
    trailingDoc (list.tokens ++ closing :: rest) = (none, list.tokens ++ closing :: rest) := by
  obtain ⟨separated, last⟩ := list
  cases separated with
  | cons first separated =>
      rw [tokens_cons, SeparatedForm.tokens, List.append_assoc]
      exact first.form.trailingDoc_before _
  | nil =>
      cases last with
      | none => exact trailingDoc_of_not (by simp [isTrailingDoc, hclosing]) rest
      | some form =>
          rw [tokens, List.flatMap_nil, List.nil_append, Option.toList_some, List.flatMap_singleton,
            List.append_assoc]
          exact form.trailingDoc_before _

theorem enumerators_nil (hclosing : closing.kind = .rBrace) :
    enumerators ending (closing :: rest) = .done [] (closing :: rest) := by
  rw [enumerators_eq, leadingAnnotations_plain (by simp [hclosing]), Read.bind_done, kindAt_cons,
    if_pos hclosing]

-- All enumerators are found, each with its annotations and its comment.
theorem enumerators_placed (list : EnumeratorList) (hclosing : closing.kind = .rBrace)
    (h : list.misplaced = false) :
    ∃ decls, enumerators ending (list.tokens ++ closing :: rest) = .done decls (closing :: rest) ∧
      decls.map EnumeratorDecl.unplaced = list.decls.map EnumeratorDecl.unplaced := by
  obtain ⟨separated, last⟩ := list
  induction separated with
  | nil =>
      cases last with
      | none => exact ⟨[], enumerators_nil rest hclosing, rfl⟩
      | some form =>
          obtain ⟨span, hread⟩ := @EnumeratorForm.enumerators_last ending form _ hclosing h rest
          rw [tokens, List.flatMap_nil, List.nil_append, Option.toList_some,
            List.flatMap_singleton, List.append_assoc]
          exact ⟨_, hread, rfl⟩
  | cons first separated ih =>
      obtain ⟨hfirst, hmore⟩ : first.misplaced = false ∧
          (EnumeratorList.mk separated last).misplaced = false := by
        simpa [misplaced, and_assoc] using h
      obtain ⟨decls, hread, hdecls⟩ := ih hmore
      obtain ⟨span, hstep⟩ := @SeparatedForm.enumerators_placed ending first _ hfirst
        (trailingDoc_before rest (EnumeratorList.mk separated last) hclosing)
      rw [hread] at hstep
      rw [tokens_cons]
      exact ⟨_ :: decls, hstep, congrArg (_ :: ·) hdecls⟩

-- Otherwise the list ends early, or a comment is missing.
theorem enumerators_misplaced (list : EnumeratorList) (hclosing : closing.kind = .rBrace)
    (h : list.misplaced = true) {decls : List EnumeratorDecl} {after : List Token}
    (hread : enumerators ending (list.tokens ++ closing :: rest) = .done decls after) :
    kindAt after = .comma ∨
      decls.map EnumeratorDecl.unplaced ≠ list.decls.map EnumeratorDecl.unplaced := by
  obtain ⟨separated, last⟩ := list
  induction separated generalizing decls with
  | nil =>
      cases last with
      | none => cases h
      | some form =>
          obtain ⟨htrailing, hvalue⟩ := Bool.and_eq_true_iff.mp h
          obtain ⟨decl, hdecl, hlast⟩ :=
            @EnumeratorForm.enumerators_last_lost ending form _ hclosing htrailing hvalue rest
          rw [tokens, List.flatMap_nil, List.nil_append, Option.toList_some,
            List.flatMap_singleton, List.append_assoc, hlast] at hread
          cases hread
          exact .inr fun hsame => form.unplaced_ne htrailing hdecl (List.cons.inj hsame).1
  | cons first separated ih =>
      have hnext := trailingDoc_before rest (EnumeratorList.mk separated last) hclosing
      rw [tokens_cons] at hread
      cases hfirst : first.misplaced with
      | false =>
          have hmore : (EnumeratorList.mk separated last).misplaced = true := by
            simpa [misplaced, hfirst] using h
          obtain ⟨span, hstep⟩ := @SeparatedForm.enumerators_placed ending first _ hfirst hnext
          obtain ⟨others, hothers, rfl⟩ := Read.map_eq_done (hstep.symm.trans hread)
          exact (ih hmore hothers).imp_right fun hne hsame => hne (List.cons.inj hsame).2
      | true =>
          obtain ⟨decl, hdecl, hstep⟩ | ⟨found, hstep⟩ :=
            @SeparatedForm.enumerators_misplaced ending first _ hfirst hnext
          · obtain ⟨others, -, rfl⟩ := Read.map_eq_done (hstep.symm.trans hread)
            have htrailing := (Bool.and_eq_true_iff.mp hfirst).2
            exact .inr fun hsame => first.form.unplaced_ne htrailing hdecl (List.cons.inj hsame).1
          · cases hstep.symm.trans hread
            exact .inl first.comma_kind

end EnumeratorList

end Reading

end Reflection.Header
