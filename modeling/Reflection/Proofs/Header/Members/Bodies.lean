import Reflection.Proofs.Header.Alongside.Classes
import Reflection.Proofs.Header.Members.Reading

namespace Reflection.Header

variable {ending : Token}

section Annotations

theorem isLeadingDoc_head {leading : List Leading} {token : Token}
    (hdocs : ∀ next ∈ leading.head?, next.isDocs = false) (htoken : token.kind ≠ .docComment)
    (rest : List Token) :
    ∃ first more, leading.flatMap Leading.tokens ++ token :: rest = first :: more ∧
      isLeadingDoc first = false := by
  cases leading with
  | nil => exact ⟨token, rest, rfl, by simp [isLeadingDoc, htoken]⟩
  | cons next leading =>
      cases next with
      | docs first more hdocs' => cases hdocs _ rfl
      | attributed attributes =>
          refine ⟨attributes.opening, _, rfl, ?_⟩
          simp [isLeadingDoc, attributes.opening_kind]

theorem takeWhile_docs {docs : List Token} {first : Token}
    (hdocs : ∀ token ∈ docs, isLeadingDoc token = true) (hfirst : isLeadingDoc first = false)
    (more : List Token) :
    (docs ++ first :: more).takeWhile isLeadingDoc = docs ∧
      (docs ++ first :: more).dropWhile isLeadingDoc = first :: more := by
  rw [List.takeWhile_append_of_pos hdocs, List.dropWhile_append_of_pos hdocs]
  simp [hfirst]

theorem isTrailingDoc_of_leading {token : Token} (h : isLeadingDoc token = true) :
    isTrailingDoc token = false := by
  unfold isLeadingDoc at h
  simpa using (Bool.and_eq_true_iff.mp h).2

theorem leadingAnnotations_leading {leading : List Leading} {token : Token}
    (hruns : List.IsChain (fun one next => one.isDocs = true → next.isDocs = false) leading)
    (htoken : token.kind ∉ [.docComment, .attrOpen]) (rest : List Token) :
    leadingAnnotations ending (leading.flatMap Leading.tokens ++ token :: rest) =
      .done (leading.map Leading.block) (token :: rest) := by
  induction leading with
  | nil => exact leadingAnnotations_plain htoken rest
  | cons next leading ih =>
      have hleading := ih hruns.tail
      rw [List.flatMap_cons, List.append_assoc]
      cases next with
      | docs first more hdocs =>
          have hnext : ∀ next ∈ leading.head?, next.isDocs = false := by
            intro next hmem
            exact (List.isChain_cons.mp hruns).1 next hmem rfl
          have hplain : token.kind ≠ .docComment := fun hkind => htoken (by simp [hkind])
          obtain ⟨behind, others, htokens, hbehind⟩ := isLeadingDoc_head hnext hplain rest
          have hwhile := takeWhile_docs
            (fun token hmem => hdocs token (List.mem_cons_of_mem first hmem)) hbehind others
          rw [htokens] at hleading ⊢
          rw [Leading.tokens, List.cons_append, leadingAnnotations_cons,
            isTrailingDoc_of_leading (hdocs first List.mem_cons_self),
            hdocs first List.mem_cons_self, if_neg (by decide), if_pos rfl, hwhile.1, hwhile.2, hleading]
          rfl
      | attributed attributes =>
          obtain ⟨tokens, htokens, hblock⟩ := @attributes.attributeBlock_tokens ending
            (leading.flatMap Leading.tokens ++ token :: rest)
          rw [Leading.tokens, htokens, leadingAnnotations_cons, hblock, Read.bind_done, hleading]
          simp [isTrailingDoc, isLeadingDoc, attributes.opening_kind, Read.map, Leading.block]

-- A trailing comment that no declaration takes is dropped.
theorem leadingAnnotations_dangling (doc : Option TrailingDoc) (rest : List Token) :
    leadingAnnotations ending (doc.toList.map TrailingDoc.token ++ rest) =
      leadingAnnotations ending rest := by
  cases doc with
  | none => rfl
  | some doc =>
      have htokens : (some doc).toList.map TrailingDoc.token ++ rest = doc.token :: rest := rfl
      rw [htokens, leadingAnnotations_cons, if_pos doc.isTrailing]

theorem trailingDoc_tokens (doc : Option TrailingDoc) {rest : List Token}
    (hrest : trailingDoc rest = (none, rest)) :
    trailingDoc (doc.toList.map TrailingDoc.token ++ rest) = (doc.map TrailingDoc.block, rest) := by
  cases doc with
  | none => exact hrest
  | some doc =>
      have htokens : (some doc).toList.map TrailingDoc.token ++ rest = doc.token :: rest := rfl
      rw [htokens, trailingDoc, if_pos doc.isTrailing]
      rfl

end Annotations

section Starts

-- The kinds of token that a data member or a member function may begin with.
def plainKinds : List TokenKind :=
  [.staticKw, .ident, .colonColon, .star, .amp, .lt, .tilde, .operatorKw]

def StartsPlain (tokens : List Token) : Prop :=
  ∃ token rest, tokens = token :: rest ∧ token.kind ∈ plainKinds

theorem StartsPlain.append {tokens : List Token} (h : StartsPlain tokens) (more : List Token) :
    StartsPlain (tokens ++ more) := by
  obtain ⟨token, rest, rfl, hkind⟩ := h
  exact ⟨token, rest ++ more, rfl, hkind⟩

theorem startsPlain_of_kind {token : Token} {kind : TokenKind} (h : token.kind = kind)
    (hkind : kind ∈ plainKinds) (rest : List Token) : StartsPlain (token :: rest) :=
  ⟨token, rest, rfl, h ▸ hkind⟩

theorem startsPlain_keyword (keyword : Option StaticKeyword) {rest : List Token}
    (hrest : StartsPlain rest) : StartsPlain (keywordTokens keyword ++ rest) := by
  cases keyword with
  | none => exact hrest
  | some keyword => exact startsPlain_of_kind keyword.kind (by decide) rest

theorem startsPlain_part (part : TypePart) : StartsPlain part.tokens := by
  cases part with
  | name token hkind => exact startsPlain_of_kind hkind (by decide) _
  | mark token hkind =>
      refine ⟨token, [], rfl, ?_⟩
      generalize token.kind = kind at hkind
      fin_cases hkind <;> decide
  | arguments opening inner closing hopening hinner hclosing =>
      exact startsPlain_of_kind hopening (by decide) _

theorem startsPlain_parts (parts : List TypePart) {rest : List Token} (hrest : StartsPlain rest) :
    StartsPlain (parts.flatMap TypePart.tokens ++ rest) := by
  cases parts with
  | nil => exact hrest
  | cons part parts =>
      rw [List.flatMap_cons, List.append_assoc]
      exact (startsPlain_part part).append _

theorem startsPlain_declarator (declarator : Declarator) : StartsPlain declarator.tokens := by
  have hmarks := declarator.mark_kinds
  rw [Declarator.tokens]
  cases hcases : declarator.marks with
  | nil => exact startsPlain_of_kind declarator.name_kind (by decide) _
  | cons mark marks =>
      have hmark := hmarks mark (by simp [hcases])
      refine ⟨mark, _, rfl, ?_⟩
      generalize mark.kind = kind at hmark
      fin_cases hmark <;> decide

theorem startsPlain_name (name : FunctionName) : StartsPlain name.tokens := by
  cases name with
  | regular name hkind | constructor name hkind => exact startsPlain_of_kind hkind (by decide) _
  | destructor tilde name htilde hkind => exact startsPlain_of_kind htilde (by decide) _
  | operator keyword symbol hkeyword => exact startsPlain_of_kind hkeyword (by decide) _

theorem DataMember.startsPlain (member : DataMember) : StartsPlain member.tokens :=
  startsPlain_keyword member.keyword
    (startsPlain_parts member.type ((startsPlain_declarator member.first).append _))

theorem MemberFunction.startsPlain (function : MemberFunction) : StartsPlain function.tokens :=
  startsPlain_keyword function.keyword
    (startsPlain_parts function.type ((startsPlain_name function.name).append _))

theorem label_kind_not_plain {kind : TokenKind} (h : kind ∈ [.publicKw, .protectedKw, .privateKw]) :
    kind ∉ plainKinds := by
  fin_cases h <;> decide

theorem memberForm_plain {token : Token} (h : token.kind ∈ plainKinds) (rest : List Token) :
    memberForm (token :: rest) = .plain := by
  rw [memberForm, kindAt_cons]
  generalize token.kind = kind at h
  fin_cases h <;> rfl

end Starts

section Plain

variable (context : MemberContext)

theorem MemberShape.members_annotate (shape : MemberShape) (access : Access)
    (before : List AnnotationBlock) (doc : Option TrailingDoc) :
    shape.members access before (doc.toList.map TrailingDoc.block) =
      match doc with
      | none => shape.members access before []
      | some doc => (shape.members access before []).map (Member.annotate doc.block) := by
  cases doc with
  | none => rfl
  | some doc =>
      cases shape with
      | label => rfl
      | data member =>
          simp [MemberShape.members, DataMember.members, Member.annotate]
      | function member =>
          simp [MemberShape.members, MemberFunction.member, Member.annotate]

-- A data member or a member function, by the reading of its tokens.
theorem memberDeclaration_shape {shape : MemberShape} (hplain : StartsPlain shape.tokens)
    (hfits : shape.Fits context.className) {rest : List Token} (hrest : kindAt rest ≠ .semicolon) :
    ∃ members, memberDeclaration context ending .nothing (shape.tokens ++ rest) =
        ⟨members, none, rest⟩ ∧
      unplacedMembers members =
        unplacedMembers (shape.members context.access context.annotations []) := by
  cases shape with
  | label keyword colon hkeyword hcolon =>
      obtain ⟨token, rest, htokens, hkind⟩ := hplain
      cases htokens
      exact absurd hkind (label_kind_not_plain hkeyword)
  | data member => exact memberDeclaration_data context member rest
  | function member =>
      obtain ⟨span, hread⟩ := @memberDeclaration_function ending context member rest hfits hrest
      refine ⟨_, hread, ?_⟩
      simp [MemberShape.members, MemberFunction.member, unplacedMembers, Member.unplaced,
        MethodDecl.unplaced]

theorem plainMembers_shape {shape : MemberShape} (hplain : StartsPlain shape.tokens)
    (hfits : shape.Fits context.className) (doc : Option TrailingDoc) {rest : List Token}
    (hrest : kindAt rest ≠ .semicolon) (hdoc : trailingDoc rest = (none, rest)) :
    ∃ members, plainMembers context ending
        (shape.tokens ++ (doc.toList.map TrailingDoc.token ++ rest)) = ⟨members, none, rest⟩ ∧
      unplacedMembers members = unplacedMembers
        (shape.members context.access context.annotations (doc.toList.map TrailingDoc.block)) := by
  have hbehind : kindAt (doc.toList.map TrailingDoc.token ++ rest) ≠ .semicolon := by
    cases doc with
    | none => exact hrest
    | some doc =>
        have hkind := doc.isTrailing
        simp only [isTrailingDoc, Bool.and_eq_true, decide_eq_true_eq] at hkind
        simp [hkind.1]
  obtain ⟨members, hread, hmembers⟩ :=
    @memberDeclaration_shape ending context shape hplain hfits _ hbehind
  rw [plainMembers, hread]
  dsimp only
  rw [trailingDoc_tokens doc hdoc, shape.members_annotate]
  cases doc with
  | none => exact ⟨members, rfl, hmembers⟩
  | some doc =>
      refine ⟨_, rfl, ?_⟩
      dsimp only
      rw [unplacedMembers_annotate, unplacedMembers_annotate, hmembers]

end Plain

section Bodies

variable (className : Option String) (access : Access)

-- Tokens that neither a trailing comment nor a `;` begins.
def StartsAnew (tokens : List Token) : Prop :=
  kindAt tokens ≠ .semicolon ∧ trailingDoc tokens = (none, tokens)

theorem startsAnew_of_kind {token : Token} (h : token.kind ∉ [.semicolon, .docComment])
    (rest : List Token) : StartsAnew (token :: rest) := by
  simp only [List.mem_cons, List.not_mem_nil, or_false, not_or] at h
  exact ⟨h.1, trailingDoc_of_kind h.2 rest⟩

-- The trailing comment of a label is left to be dropped in front of the next declaration.
def MemberShape.dangling (doc : Option TrailingDoc) : MemberShape → Option TrailingDoc
  | label .. => doc
  | _ => none

theorem MemberShape.startsAnew (shape : MemberShape) (rest : List Token) :
    ∃ token more, shape.tokens ++ rest = token :: more ∧
      token.kind ∉ [.semicolon, .docComment, .attrOpen, .rBrace] := by
  have hplain {tokens : List Token} (h : StartsPlain tokens) :
      ∃ token more, tokens ++ rest = token :: more ∧
        token.kind ∉ [.semicolon, .docComment, .attrOpen, .rBrace] := by
    obtain ⟨token, more, rfl, hkind⟩ := h
    refine ⟨token, more ++ rest, rfl, ?_⟩
    generalize token.kind = kind at hkind
    fin_cases hkind <;> decide
  cases shape with
  | label keyword colon hkeyword hcolon =>
      refine ⟨keyword, colon :: rest, rfl, ?_⟩
      generalize keyword.kind = kind at hkeyword
      fin_cases hkeyword <;> decide
  | data member => exact hplain member.startsPlain
  | function member => exact hplain member.startsPlain

theorem MemberEntry.startsAnew (entry : MemberEntry) (rest : List Token) :
    ∃ token more, entry.tokens ++ rest = token :: more ∧ token.kind ≠ .rBrace ∧
      StartsAnew (token :: more) := by
  rw [MemberEntry.tokens, List.append_assoc]
  cases entry.leading with
  | nil =>
      obtain ⟨token, more, htokens, hkind⟩ :=
        entry.shape.startsAnew (entry.trailingTokens ++ rest)
      simp only [List.mem_cons, List.not_mem_nil, or_false, not_or] at hkind
      exact ⟨token, more, by rw [List.flatMap_nil, List.nil_append, List.append_assoc, htokens],
        hkind.2.2.2, hkind.1, trailingDoc_of_kind hkind.2.1 more⟩
  | cons leading others =>
      cases leading with
      | docs first more hdocs =>
          have hfirst := hdocs first List.mem_cons_self
          have hkind : first.kind = .docComment := by
            unfold isLeadingDoc at hfirst
            simpa using (Bool.and_eq_true_iff.mp hfirst).1
          refine ⟨first, _, rfl, ?_, ?_, ?_⟩
          · simp [hkind]
          · simp [hkind]
          · simp [trailingDoc, isTrailingDoc_of_leading hfirst]
      | attributed attributes =>
          refine ⟨attributes.opening, _, rfl, ?_, startsAnew_of_kind ?_ _⟩
          · simp [attributes.opening_kind]
          · simp [attributes.opening_kind]

theorem MemberEntry.dangling_length (entry : MemberEntry) :
    ((entry.shape.dangling entry.trailing).toList.map TrailingDoc.token).length <
      entry.tokens.length := by
  obtain ⟨token, more, htokens, _⟩ := entry.shape.startsAnew []
  have hshape : 0 < entry.shape.tokens.length := by
    rw [← List.append_nil entry.shape.tokens, htokens]
    exact Nat.succ_pos _
  have hdangling : (entry.shape.dangling entry.trailing).toList.length ≤
      entry.trailing.toList.length := by
    cases entry.shape with
    | label => exact Nat.le_refl _
    | data | function => exact Nat.zero_le _
  simp only [MemberEntry.tokens, MemberEntry.trailingTokens, List.length_append, List.length_map]
  omega

theorem MemberStep.ofSkip_done {bound : Nat} {read : Read Unit} {rest : List Token}
    (hread : read = .done () rest) (h : read.rest.length ≤ bound) :
    MemberStep.ofSkip access read h = ⟨[], access, none, [], rest, by rwa [hread] at h⟩ := by
  subst hread
  rfl

theorem member_label {keyword colon : Token}
    (hkeyword : keyword.kind ∈ [.publicKw, .protectedKw, .privateKw]) (hcolon : colon.kind = .colon)
    (annotations : List AnnotationBlock) (rest : List Token) :
    let step := member .tolerant ending className access annotations (keyword :: colon :: rest)
    step.members = [] ∧ step.access = accessOf keyword.kind ∧ step.errors = [] ∧
      step.next = rest := by
  have hform : memberForm (keyword :: colon :: rest) = .label := by
    rw [memberForm, kindAt_cons]
    generalize keyword.kind = kind at hkeyword
    fin_cases hkeyword <;> rfl
  have hexpect : expect ending .colon (colon :: rest) = .done () rest := if_pos hcolon
  rw [member_cons, hform]
  dsimp only
  rw [MemberStep.ofSkip_done _ hexpect]
  exact ⟨rfl, rfl, rfl, rfl⟩

theorem member_plain {shape : MemberShape} (hplain : StartsPlain shape.tokens)
    (hfits : shape.Fits className) (annotations : List AnnotationBlock) (doc : Option TrailingDoc)
    {rest : List Token} (hrest : StartsAnew rest) :
    let step := member .tolerant ending className access annotations
      (shape.tokens ++ (doc.toList.map TrailingDoc.token ++ rest))
    unplacedMembers step.members =
        unplacedMembers (shape.members access annotations (doc.toList.map TrailingDoc.block)) ∧
      step.access = access ∧ step.errors = [] ∧ step.next = rest := by
  obtain ⟨token, more, htokens, hkind⟩ := hplain.append (doc.toList.map TrailingDoc.token ++ rest)
  obtain ⟨members, hread, hmembers⟩ := @plainMembers_shape ending
    ⟨token.span, annotations, access, className⟩ shape hplain hfits doc rest hrest.1 hrest.2
  rw [htokens] at hread ⊢
  rw [member_cons, memberForm_plain hkind]
  simp [MemberStep.ofMembers, MemberStep.errors, MemberStep.next, hread, hmembers]

theorem member_shape (shape : MemberShape) (hfits : shape.Fits className)
    (annotations : List AnnotationBlock) (doc : Option TrailingDoc) {rest : List Token}
    (hrest : StartsAnew rest) :
    let step := member .tolerant ending className access annotations
      (shape.tokens ++ (doc.toList.map TrailingDoc.token ++ rest))
    unplacedMembers step.members =
        unplacedMembers (shape.members access annotations (doc.toList.map TrailingDoc.block)) ∧
      step.access = shape.behind access ∧ step.errors = [] ∧
        step.next = (shape.dangling doc).toList.map TrailingDoc.token ++ rest := by
  cases shape with
  | label keyword colon hkeyword hcolon =>
      obtain ⟨hmembers, hbehind, herrors, hnext⟩ := @member_label ending className access keyword
        colon hkeyword hcolon annotations (doc.toList.map TrailingDoc.token ++ rest)
      exact ⟨congrArg unplacedMembers hmembers, hbehind, herrors, hnext⟩
  | data data =>
      have hplain : StartsPlain (MemberShape.data data).tokens := data.startsPlain
      exact member_plain className access hplain hfits annotations doc hrest
  | function function =>
      have hplain : StartsPlain (MemberShape.function function).tokens := function.startsPlain
      exact member_plain className access hplain hfits annotations doc hrest

theorem memberStep_entry (entry : MemberEntry) (hfits : entry.shape.Fits className)
    (doc : Option TrailingDoc) {rest : List Token} (hrest : StartsAnew rest) :
    let step := memberStep .tolerant ending className access
      (doc.toList.map TrailingDoc.token ++ (entry.tokens ++ rest))
    unplacedMembers step.members = unplacedMembers (entry.members access) ∧
      step.access = entry.shape.behind access ∧ step.errors = [] ∧
        step.next = (entry.shape.dangling entry.trailing).toList.map TrailingDoc.token ++ rest := by
  obtain ⟨token, more, htokens, hkind⟩ := entry.shape.startsAnew (entry.trailingTokens ++ rest)
  simp only [List.mem_cons, List.not_mem_nil, or_false, not_or] at hkind
  have hlead : leadingAnnotations ending
      (doc.toList.map TrailingDoc.token ++ (entry.tokens ++ rest)) =
        .done (entry.leading.map Leading.block)
          (entry.shape.tokens ++ (entry.trailingTokens ++ rest)) := by
    rw [leadingAnnotations_dangling, MemberEntry.tokens, List.append_assoc, List.append_assoc,
      htokens]
    exact leadingAnnotations_leading entry.runs (by simp [hkind.2.1, hkind.2.2.1]) more
  rw [memberStep_eq_after, MemberStep.after_done hlead]
  exact member_shape className access entry.shape hfits _ entry.trailing hrest

-- The tokens of a body up to and with the brace that closes it.
def bodyTokens (entries : List MemberEntry) (closing : Token) (rest : List Token) : List Token :=
  entries.flatMap MemberEntry.tokens ++ closing :: rest

theorem startsAnew_body (entries : List MemberEntry) {closing : Token}
    (hclosing : closing.kind = .rBrace) (rest : List Token) :
    StartsAnew (bodyTokens entries closing rest) := by
  cases entries with
  | nil => exact startsAnew_of_kind (by simp [hclosing]) rest
  | cons entry entries =>
      obtain ⟨token, more, htokens, _, hanew⟩ := entry.startsAnew (bodyTokens entries closing rest)
      rw [bodyTokens, List.flatMap_cons, List.append_assoc, ← bodyTokens, htokens]
      exact hanew

theorem TrailingDoc.kind (doc : TrailingDoc) : doc.token.kind = .docComment := by
  have h := doc.isTrailing
  simp only [isTrailingDoc, Bool.and_eq_true, decide_eq_true_eq] at h
  exact h.1

-- A trailing comment in front of the closing brace declares nothing.
theorem classBody_dangling (doc : TrailingDoc) {closing : Token} (hclosing : closing.kind = .rBrace)
    (rest : List Token) :
    Recorded.Extends [] [] (classBody .tolerant ending className access (closing :: rest))
      (classBody .tolerant ending className access (doc.token :: closing :: rest)) := by
  have hopen : doc.token.kind ≠ .rBrace := by simp [doc.kind]
  have hlead : leadingAnnotations ending (doc.token :: closing :: rest) =
      .done [] (closing :: rest) := by
    rw [leadingAnnotations_cons, if_pos doc.isTrailing,
      leadingAnnotations_plain (by simp [hclosing])]
  have hform : memberForm (closing :: rest) = .closing := by rw [memberForm, kindAt_cons, hclosing]
  have hstep := @memberStep_eq_after ending (doc.token :: closing :: rest) .tolerant className
    access
  rw [MemberStep.after_done hlead, member_cons, hform] at hstep
  have hnext : (memberStep .tolerant ending className access
      (doc.token :: closing :: rest)).next = closing :: rest := by
    rw [hstep]
    rfl
  have hextends := classBody_next className access hopen hnext (Nat.lt_succ_self _)
  rw [hstep] at hextends
  exact hextends

theorem classBody_entries {entries : List MemberEntry}
    (hfits : ∀ entry ∈ entries, entry.shape.Fits className) (doc : Option TrailingDoc)
    {closing : Token} (hclosing : closing.kind = .rBrace) (rest : List Token) :
    let read := classBody .tolerant ending className access
      (doc.toList.map TrailingDoc.token ++ bodyTokens entries closing rest)
    ∃ members, read.outcome = .ok members ∧
      unplacedMembers members = unplacedMembers (declaredMembers access entries) ∧
        read.recovered = [] ∧ read.rest = rest := by
  induction entries generalizing access doc with
  | nil =>
      have hclosed := classBody_rBrace .tolerant ending className access hclosing rest
      cases doc with
      | none =>
          have htokens : (none : Option TrailingDoc).toList.map TrailingDoc.token ++
              bodyTokens [] closing rest = closing :: rest := rfl
          rw [htokens, hclosed]
          exact ⟨[], rfl, rfl, rfl, rfl⟩
      | some doc =>
          have hextends := @classBody_dangling ending className access doc closing hclosing rest
          have houtcome := hextends.outcome
          have hreports := hextends.recovered
          have hleft := hextends.rest
          rw [hclosed] at houtcome hreports hleft
          exact ⟨[], houtcome, rfl, hreports, hleft⟩
  | cons entry entries ih =>
      have hanew := startsAnew_body entries hclosing rest
      obtain ⟨hmembers, haccess, herrors, hnext⟩ := @memberStep_entry ending className access entry
        (hfits entry List.mem_cons_self) doc _ hanew
      obtain ⟨members, hread, hdeclared, hreports, hleft⟩ := ih (entry.shape.behind access)
        (fun other hmem => hfits other (List.mem_cons_of_mem entry hmem))
        (entry.shape.dangling entry.trailing)
      have hsplit : doc.toList.map TrailingDoc.token ++ bodyTokens (entry :: entries) closing rest =
          doc.toList.map TrailingDoc.token ++
            (entry.tokens ++ bodyTokens entries closing rest) := by
        rw [bodyTokens, List.flatMap_cons, List.append_assoc, ← bodyTokens]
      obtain ⟨token, more, htokens, hopen⟩ : ∃ token more,
          doc.toList.map TrailingDoc.token ++ (entry.tokens ++ bodyTokens entries closing rest) =
            token :: more ∧ token.kind ≠ .rBrace := by
        cases doc with
        | none =>
            obtain ⟨token, more, htokens, hopen, _⟩ :=
              entry.startsAnew (bodyTokens entries closing rest)
            exact ⟨token, more, htokens, hopen⟩
        | some doc => exact ⟨doc.token, _, rfl, by simp [doc.kind]⟩
      have hlength : ((entry.shape.dangling entry.trailing).toList.map TrailingDoc.token ++
          bodyTokens entries closing rest).length < (token :: more).length := by
        have hshorter := entry.dangling_length
        rw [← htokens]
        simp only [List.length_append] at hshorter ⊢
        omega
      rw [hsplit, htokens]
      rw [htokens] at hmembers haccess herrors hnext
      have hextends := classBody_next className access hopen hnext hlength
      rw [haccess, herrors] at hextends
      refine ⟨(memberStep .tolerant ending className access (token :: more)).members ++ members,
        ?_, ?_, ?_, ?_⟩
      · rw [hextends.outcome, hread]
        rfl
      · rw [unplacedMembers_append, hmembers, hdeclared, declaredMembers, unplacedMembers_append]
      · rw [hextends.recovered, hreports]
        rfl
      · rw [hextends.rest, hleft]

end Bodies

end Reflection.Header
