import Reflection.Proofs.Header.Members.Declares
import Reflection.Proofs.Header.Members.Headers
import Reflection.Proofs.Header.TypeHeads

namespace Reflection.Header

variable {ending : Token}

section Fields

namespace TypePart

def isWritten : TypePart → Bool
  | name .. => true
  | mark token _ => token.kind = .colonColon
  | arguments .. => false

def IsPaired : TypePart → Prop
  | arguments _ inner _ _ _ _ => Paired inner
  | _ => True

end TypePart

-- A data member with the keyword of a class or enum in front of its type.
structure ElaboratedMember where
  keyword : Token
  data : DataMember
  keyword_kind : isTypeKey keyword.kind = true
  data_keyword : data.keyword = none

namespace ElaboratedMember

variable (declaration : ElaboratedMember)

def tokens : List Token := declaration.keyword :: declaration.data.tokens

def IsPaired : Prop := ∀ part ∈ declaration.data.type, part.IsPaired

-- The member without the keyword, behind the name of its first declarator.
def behindName : List Token :=
  declaration.data.first.suffixes.flatMap Suffix.tokens ++ (declaration.data.first.initial.tokens ++
    (declaration.data.more.flatMap commaTokens ++ [declaration.data.semicolon]))

-- Does the member begin like the declaration of a type? So it does if nothing but names stands in
-- front of a `;`, `:` or brace.
def beginsLikeType : Bool :=
  declaration.data.type.all TypePart.isWritten && declaration.data.first.marks.isEmpty &&
    stopsHead (kindAt declaration.behindName)

theorem data_tokens : declaration.data.tokens = declaration.data.type.flatMap TypePart.tokens ++
    (declaration.data.first.marks ++ declaration.data.first.name :: declaration.behindName) := by
  rw [DataMember.tokens, declaration.data_keyword, Declarator.tokens, behindName]
  simp [keywordTokens]

theorem behindName_cons : ∃ token more, declaration.behindName = token :: more ∧
    token.kind ∉ [.ident, .colonColon, .lt] := by
  unfold behindName
  cases declaration.data.first.suffixes with
  | cons suffix suffixes =>
      cases suffix with
      | attributed attributes =>
          exact ⟨attributes.opening, _, rfl, by simp [attributes.opening_kind]⟩
      | bound group hgroup =>
          obtain ⟨opening, inner, htokens, hkind, _⟩ := @WholeGroup.skip (declaration.keyword) _ _
            hgroup (suffixes.flatMap Suffix.tokens ++ (declaration.data.first.initial.tokens ++
              (declaration.data.more.flatMap commaTokens ++ [declaration.data.semicolon])))
          refine ⟨opening, inner, ?_, by simp [hkind]⟩
          rw [List.flatMap_cons, List.append_assoc, Suffix.tokens, htokens]
  | nil =>
      rw [List.flatMap_nil, List.nil_append]
      cases declaration.data.first.initial with
      | marked mark value hmark hvalue =>
          refine ⟨mark, _, rfl, ?_⟩
          generalize mark.kind = kind at hmark
          fin_cases hmark <;> decide
      | braced group hgroup =>
          obtain ⟨opening, inner, htokens, hkind, _⟩ := @WholeGroup.skip (declaration.keyword) _ _
            hgroup (declaration.data.more.flatMap commaTokens ++ [declaration.data.semicolon])
          exact ⟨opening, inner, htokens, by simp [hkind]⟩
      | absent =>
          cases hmore : declaration.data.more with
          | nil => exact ⟨declaration.data.semicolon, [], rfl, by
              simp [declaration.data.semicolon_kind]⟩
          | cons entry more =>
              have hcomma := declaration.data.comma_kinds entry (by simp [hmore])
              exact ⟨entry.1, _, rfl, by simp [hcomma]⟩

-- Template arguments, `*` and `&` end the lookahead in front of what a declarator begins with.
theorem headEnds_type {parts : List TypePart} (hpaired : ∀ part ∈ parts, part.IsPaired)
    {after : List Token} (hafter : StartsPlain after) :
    headEnds (parts.flatMap TypePart.tokens ++ after) =
      (parts.all TypePart.isWritten && headEnds after) := by
  induction parts with
  | nil => rfl
  | cons part parts ih =>
      have hread := ih fun other hmem => hpaired other (List.mem_cons_of_mem part hmem)
      rw [List.flatMap_cons, List.append_assoc, List.all_cons]
      cases part with
      | name token hkind =>
          rw [TypePart.tokens, List.singleton_append, headEnds_name (by simp [isNamePart, hkind]),
            hread, TypePart.isWritten, Bool.true_and]
      | mark token hkind =>
          rw [TypePart.tokens, List.singleton_append, TypePart.isWritten]
          by_cases hcolons : token.kind = .colonColon
          · rw [headEnds_name (by simp [isNamePart, hcolons]), hread]
            simp [hcolons]
          · have hsign : token.kind ∈ [.star, .amp] := List.mem_of_ne_of_mem hcolons hkind
            generalize hvalue : token.kind = kind at hsign
            fin_cases hsign <;> rw [headEnds_other (by simp [hvalue]), hvalue] <;> rfl
      | arguments opening inner closing hopening hinner hclosing =>
          have hbehind : stopsHead (kindAt (parts.flatMap TypePart.tokens ++ after)) = false := by
            obtain ⟨token, more, htokens, hkind⟩ := startsPlain_parts parts hafter
            rw [htokens, kindAt_cons]
            generalize token.kind = kind at hkind
            fin_cases hkind <;> rfl
          have hinner : Paired inner := hpaired _ List.mem_cons_self
          rw [TypePart.tokens, List.cons_append, List.append_assoc, List.singleton_append,
            headEnds_arguments hopening, TypePart.isWritten, Bool.false_and, Bool.false_and]
          rcases pastAngles_paired hinner 0 (closing :: (parts.flatMap TypePart.tokens ++ after))
            with hnone | hclosed
          · rw [hnone]
            rfl
          · rw [hclosed, pastAngles, hclosing]
            exact hbehind

theorem headEnds_data (hpaired : declaration.IsPaired) (rest : List Token) :
    headEnds (declaration.data.tokens ++ rest) = declaration.beginsLikeType := by
  obtain ⟨token, more, htokens, hkind⟩ := declaration.behindName_cons
  have hplain : StartsPlain ((declaration.data.first.marks ++
      declaration.data.first.name :: declaration.behindName) ++ rest) := by
    have hstarts := startsPlain_declarator declaration.data.first
    rw [Declarator.tokens] at hstarts
    rw [List.append_assoc]
    cases hmarks : declaration.data.first.marks with
    | nil => exact startsPlain_of_kind declaration.data.first.name_kind (by decide) _
    | cons mark marks =>
        rw [hmarks] at hstarts
        obtain ⟨first, others, hfirst, hmark⟩ := hstarts
        cases hfirst
        exact ⟨mark, _, rfl, hmark⟩
  rw [declaration.data_tokens, List.append_assoc, headEnds_type hpaired hplain,
    beginsLikeType, Bool.and_assoc]
  congr 1
  cases hmarks : declaration.data.first.marks with
  | nil =>
      have hname : isNamePart declaration.data.first.name = true := by
        simp [isNamePart, declaration.data.first.name_kind]
      rw [List.nil_append, List.cons_append, headEnds_name hname, htokens, List.cons_append,
        headEnds_other hkind]
      rfl
  | cons mark marks =>
      have hmark := declaration.data.first.mark_kinds mark (by simp [hmarks])
      rw [List.cons_append, List.cons_append]
      generalize hvalue : mark.kind = kind at hmark
      fin_cases hmark <;> rw [headEnds_other (by simp [hvalue]), hvalue] <;> rfl

theorem startsTypeDeclaration_tokens (hpaired : declaration.IsPaired) (rest : List Token) :
    startsTypeDeclaration (declaration.tokens ++ rest) = declaration.beginsLikeType := by
  obtain ⟨token, more, htokens, hkind⟩ := declaration.data.startsPlain.append rest
  have hkey : pastTypeKey (declaration.tokens ++ rest) = declaration.data.tokens ++ rest := by
    rw [tokens, List.cons_append, pastTypeKey, if_neg]
    rintro ⟨_, hclass⟩
    rw [htokens, kindAt_cons] at hclass
    generalize token.kind = kind at hkind hclass
    fin_cases hkind <;> simp at hclass
  have hpast : pastSpecifiers (pastTypeKey (declaration.tokens ++ rest)) =
      some (declaration.data.tokens ++ rest) := by
    rw [hkey, htokens, pastSpecifiers_cons]
    generalize token.kind = kind at hkind
    fin_cases hkind <;> rfl
  rw [startsTypeDeclaration_eq hpast, declaration.headEnds_data hpaired]

theorem memberForm_keyword (rest : List Token) :
    memberForm (declaration.tokens ++ rest) =
      if startsTypeDeclaration (declaration.tokens ++ rest) = true then
        if declaration.keyword.kind = .enumKw then .enumType else .classType
      else .plain := by
  have hkeyword := declaration.keyword_kind
  rw [tokens, List.cons_append, memberForm, kindAt_cons]
  cases hkind : declaration.keyword.kind <;> simp_all [isTypeKey, isClassKey]

-- The keyword itself means nothing to the reading of a member.
theorem memberDeclaration_keyword_type (context : MemberContext) (seen : Seen) (rest : List Token) :
    memberDeclaration context ending seen (declaration.tokens ++ rest) =
      memberDeclaration context ending seen (declaration.data.tokens ++ rest) := by
  have hkeyword := declaration.keyword_kind
  rw [tokens, List.cons_append, memberDeclaration_cons]
  cases hkind : declaration.keyword.kind <;> simp_all [isTypeKey, isClassKey]

-- The members that the declaration gives without its keyword, with the comment behind it.
def fields (access : Access) (annotations : List AnnotationBlock) (rest : List Token) :
    List Member :=
  commented (trailingDoc rest).1 (declaration.data.members access annotations [])

variable (className : Option String) (access : Access) (annotations : List AnnotationBlock)
  (rest : List Token)

theorem declares_data :
    (member .tolerant ending className access annotations
      (declaration.data.tokens ++ rest)).Declares access
        (declaration.fields access annotations rest) (trailingDoc rest).2 := by
  obtain ⟨token, more, htokens, hkind⟩ := declaration.data.startsPlain.append rest
  refine member_declares (htokens ▸ memberForm_plain hkind more) fun start => ?_
  exact memberDeclaration_data _ declaration.data rest

theorem declares_plain (h : startsTypeDeclaration (declaration.tokens ++ rest) = false) :
    (member .tolerant ending className access annotations (declaration.tokens ++ rest)).Declares
      access (declaration.fields access annotations rest) (trailingDoc rest).2 := by
  refine member_declares (by rw [memberForm_keyword, h]; rfl) fun start => ?_
  rw [memberDeclaration_keyword_type]
  exact memberDeclaration_data _ declaration.data rest

-- As the declaration of a type, it gives none of these members.
theorem not_declares_type (h : startsTypeDeclaration (declaration.tokens ++ rest) = true) :
    ¬(member .tolerant ending className access annotations (declaration.tokens ++ rest)).Declares
      access (declaration.fields access annotations rest) (trailingDoc rest).2 := by
  have hfields : ∃ decl others, declaration.fields access annotations rest =
      .field decl :: others := by
    unfold fields commented DataMember.members
    cases (trailingDoc rest).1 <;> exact ⟨_, _, rfl⟩
  have hform := declaration.memberForm_keyword rest
  rw [if_pos h, tokens, List.cons_append] at hform
  rw [tokens, List.cons_append, member_cons, hform]
  by_cases henum : declaration.keyword.kind = .enumKw
  · rw [if_pos henum]
    exact MemberStep.not_declares_type _ (fun read => ⟨_, _, rfl⟩) hfields
  · rw [if_neg henum]
    exact MemberStep.not_declares_type _ (fun read => ⟨_, _, rfl⟩) hfields

end ElaboratedMember

end Fields

-- With the keyword of a type in front of it, a data member declares the same fields, unless the
-- lookahead takes it for the declaration of a type, as it does where names alone stand in front of
-- the end of a head. The lookahead takes any names for the name of a type, its readers a single
-- one.
theorem elaborated_declares_iff :
    (∀ (declaration : ElaboratedMember) (className : Option String) (access : Access)
      (annotations : List AnnotationBlock) (rest : List Token),
      (member .tolerant ending className access annotations
        (declaration.data.tokens ++ rest)).Declares access
          (declaration.fields access annotations rest) (trailingDoc rest).2 ∧
      ((member .tolerant ending className access annotations
        (declaration.tokens ++ rest)).Declares access
          (declaration.fields access annotations rest) (trailingDoc rest).2 ↔
        startsTypeDeclaration (declaration.tokens ++ rest) = false) ∧
      (declaration.IsPaired →
        startsTypeDeclaration (declaration.tokens ++ rest) = declaration.beginsLikeType)) ∧
    (∀ (head : TypeHead) (keyword : Token),
      startsTypeDeclaration (keyword :: head.tokens) = true ∧
      ((classOpening ending head.tokens).FailsBefore head.behind ↔ ¬ClassName head.names)) ∧
    ∀ (head : TypeHead) (keywords : TypeHead.EnumKeywords) (annotations : List AnnotationBlock),
      startsTypeDeclaration (keywords.first :: head.enumTokens keywords) = true ∧
      ((enumDeclaration ending annotations keywords.first
        (head.enumTokens keywords)).FailsBefore head.behind ↔ ¬OptionalName head.names) := by
  refine ⟨fun declaration className access annotations rest =>
    ⟨declaration.declares_data className access annotations rest, ⟨fun h => ?_,
      declaration.declares_plain className access annotations rest⟩,
      fun hpaired => declaration.startsTypeDeclaration_tokens hpaired rest⟩,
    fun head keyword => ⟨?_, head.classOpening_failsBefore⟩,
    fun head keywords annotations => ⟨?_, head.enumDeclaration_failsBefore keywords annotations⟩⟩
  · by_contra hbegins
    exact declaration.not_declares_type className access annotations rest (by simpa using hbegins) h
  · exact head.startsTypeDeclaration_pastTypeKey (head.pastTypeKey_tokens keyword)
  · exact head.startsTypeDeclaration_pastTypeKey (head.pastTypeKey_enumTokens keywords)

section Sample

open ClassHeader (tokenAt)

-- `struct a::Point<int> *p[2], *qs;`
def elaboratedSample : ElaboratedMember where
  keyword := tokenAt .structKw 0 "" "struct"
  data := {
    keyword := none
    type := [.name (tokenAt .ident 7 " " "a") rfl,
      .mark (tokenAt .colonColon 8 "" "::") (by decide),
      .name (tokenAt .ident 10 "" "Point") rfl,
      .arguments (tokenAt .lt 15 "" "<") [tokenAt .ident 16 "" "int"] (tokenAt .gt 19 "" ">") rfl
        (.token (by decide) rfl rfl .nil) rfl]
    first := {
      marks := [tokenAt .star 21 " " "*"]
      name := tokenAt .ident 22 "" "p"
      suffixes := [.bound [tokenAt .lBracket 23 "" "[", tokenAt .number 24 "" "2",
        tokenAt .rBracket 25 "" "]"] (@WholeGroup.delimiters (tokenAt .lBracket 23 "" "[")
          (tokenAt .rBracket 25 "" "]") [tokenAt .number 24 "" "2"] ⟨rfl, nofun, rfl⟩
          (.token rfl rfl .nil))]
      initial := .absent
      mark_kinds := by simp [tokenAt]
      name_kind := rfl }
    more := [(tokenAt .comma 26 "" ",",
      ⟨[tokenAt .star 28 " " "*"], tokenAt .ident 29 "" "qs", [], .absent, by simp [tokenAt], rfl⟩)]
    semicolon := tokenAt .semicolon 31 "" ";"
    comma_kinds := by simp [tokenAt]
    semicolon_kind := rfl }
  keyword_kind := rfl
  data_keyword := rfl

theorem elaborated_declares_sample :
    (scan "struct a::Point<int> *p[2], *qs;".toList).items = elaboratedSample.tokens ∧
      (member .tolerant ⟨.eof, 32, [], []⟩ none .publicAccess []
        (elaboratedSample.tokens ++ [])).Declares .publicAccess
          (elaboratedSample.fields .publicAccess [] []) [] := by
  obtain ⟨_, hdeclares, hbegins⟩ := (@elaborated_declares_iff ⟨.eof, 32, [], []⟩).1 elaboratedSample
    none .publicAccess [] []
  refine ⟨by decide +kernel, hdeclares.mpr ?_⟩
  rw [hbegins]
  · rfl
  · intro part hmem
    simp only [elaboratedSample, List.mem_cons, List.not_mem_nil, or_false] at hmem
    rcases hmem with rfl | rfl | rfl | rfl
    · trivial
    · trivial
    · trivial
    · exact .token (by decide) .nil

-- A plain member of such a type is lost.
theorem elaborated_lost :
    parsedBriefly "struct S \x7b Point p; \x7d;" = some ([("p", .publicAccess, [])], []) ∧
      parsedBriefly "struct S \x7b struct Point p; \x7d;" =
        some ([], ["unexpected token: expected '\x7b', found identifier"]) :=
  ⟨by decide +kernel, by decide +kernel⟩

end Sample

end Reflection.Header
