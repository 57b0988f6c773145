import Reflection.Proofs.Header.Members.Headers
import Reflection.Proofs.Header.Members.Parts

namespace Reflection.Header

variable {ending : Token} (context : MemberContext) (seen : Seen)

-- A part of an initial value.
inductive ValuePart where
  | token (token : Token) (hsemicolon : token.kind ≠ .semicolon) (hopen : token.kind.isOpen = false)
      (hclose : token.kind.isClose = false)
  | group (kind : TokenKind) (tokens : List Token) (hgroup : WholeGroup kind tokens)

namespace ValuePart

def tokens : ValuePart → List Token
  | token single _ _ _ => [single]
  | group _ tokens _ => tokens

def isComma : ValuePart → Bool
  | token single _ _ _ => single.kind = .comma
  | group .. => false

theorem value_parts {parts : List ValuePart} (h : parts.any isComma = false) :
    Value (parts.flatMap tokens) := by
  induction parts with
  | nil => exact .nil
  | cons part parts ih =>
      obtain ⟨hpart, hparts⟩ := Bool.or_eq_false_iff.mp h
      rw [List.flatMap_cons]
      cases part with
      | token single hsemicolon hopen hclose =>
          have hcomma : single.kind ≠ .comma := of_decide_eq_false hpart
          exact .token (by simp [hcomma, hsemicolon]) hopen hclose (ih hparts)
      | group kind group hgroup => exact .group hgroup (ih hparts)

-- The first comma of a value has only other parts in front of it.
theorem exists_comma {parts : List ValuePart} (h : parts.any isComma = true) :
    ∃ front comma behind, parts.flatMap tokens = front ++ comma :: behind ∧ Value front ∧
      comma.kind = .comma := by
  induction parts with
  | nil => cases h
  | cons part parts ih =>
      rw [List.flatMap_cons]
      cases hpart : part.isComma with
      | true =>
          cases part with
          | token single => exact ⟨[], single, _, rfl, .nil, of_decide_eq_true hpart⟩
          | group => cases hpart
      | false =>
          obtain ⟨front, comma, behind, htokens, hfront, hcomma⟩ :=
            ih (by simpa [hpart] using h)
          refine ⟨part.tokens ++ front, comma, behind, ?_, ?_, hcomma⟩
          · rw [htokens, List.append_assoc]
          · cases part with
            | token single hsemicolon hopen hclose =>
                have hother : single.kind ≠ .comma := of_decide_eq_false hpart
                exact .token (by simp [hother, hsemicolon]) hopen hclose hfront
            | group kind group hgroup => exact .group hgroup hfront

end ValuePart

inductive InitialValue where
  | assigned (equals : Token) (parts : List ValuePart) (hequals : equals.kind = .eq)
  | braced (group : List Token) (hgroup : WholeGroup .lBrace group)

namespace InitialValue

def tokens : InitialValue → List Token
  | assigned equals parts _ => equals :: parts.flatMap ValuePart.tokens
  | braced group _ => group

-- Is there a comma outside of groups?
def hasComma : InitialValue → Bool
  | assigned _ parts _ => parts.any ValuePart.isComma
  | braced .. => false

end InitialValue

-- A data member with a type, a name and an initial value.
structure InitializedMember where
  parts : List MemberPart
  name : Token
  value : InitialValue
  semicolon : Token
  named : MemberPart.lastName parts = some name
  typed : 2 ≤ parts.countP MemberPart.isName
  semicolon_kind : semicolon.kind = .semicolon

section Nonempty

variable {context seen} {tokens : List Token}

theorem MembersRead.IsFunction.ne_nil {read : MembersRead} (h : read.IsFunction context seen)
    (herror : read.error = none) : read.members ≠ [] := by
  cases h with
  | failed => cases herror
  | read => exact List.cons_ne_nil _ _

theorem named_ne_nil {name opening : Token} (hnames : 2 ≤ seen.names)
    (h : (context.named ending seen name opening tokens).error = none) :
    (context.named ending seen name opening tokens).members ≠ [] := by
  rcases @named_isFunction ending tokens context seen name opening with hread | ⟨hone, _⟩
  · exact hread.ne_nil h
  · omega

theorem operator_ne_nil (h : (context.operator ending seen tokens).error = none) :
    (context.operator ending seen tokens).members ≠ [] := operator_isFunction.ne_nil h

-- A declaration in which two names have been seen never declares nothing.
theorem memberDeclaration_ne_nil (hnames : 2 ≤ seen.names)
    (h : (memberDeclaration context ending seen tokens).error = none) :
    (memberDeclaration context ending seen tokens).members ≠ [] := by
  fun_induction memberDeclaration context ending seen tokens with
    grind [named_ne_nil, operator_ne_nil, MembersRead.failed, MembersRead.cons]

end Nonempty

namespace InitializedMember

variable (declaration : InitializedMember)

def tokens : List Token :=
  declaration.parts.flatMap MemberPart.tokens ++
    (declaration.value.tokens ++ [declaration.semicolon])

-- The field that the declaration is for, without its place.
def field (access : Access) (annotations : List AnnotationBlock) : Member :=
  .field ⟨declaration.name.word, declaration.parts.any MemberPart.isStatic, access,
    annotations ++ MemberPart.keptBlocks false declaration.parts, .none⟩

-- What has been seen in front of the value.
def inFront : Seen :=
  ⟨declaration.parts.any MemberPart.isStatic, false, some declaration.name,
    declaration.parts.countP MemberPart.isName, MemberPart.keptBlocks false declaration.parts⟩

theorem inFront_eq : Seen.nothing.behindParts false declaration.parts = declaration.inFront := by
  simp [Seen.behindParts, Seen.nothing, declaration.named, inFront]

theorem memberDeclaration_value (rest : List Token) :
    memberDeclaration context ending .nothing (declaration.tokens ++ rest) =
      memberDeclaration context ending declaration.inFront
        (declaration.value.tokens ++ (declaration.semicolon :: rest)) := by
  have hvalue : kindAt (declaration.value.tokens ++ (declaration.semicolon :: rest)) ∉
      [.attrOpen, .alignasKw] := by
    cases hvalue : declaration.value with
    | assigned equals parts hequals => simp [InitialValue.tokens, hequals]
    | braced group hgroup =>
        rw [InitialValue.tokens, hgroup.kindAt_append]
        decide
  rw [tokens, List.append_assoc, List.append_assoc, List.singleton_append,
    (memberDeclaration_memberParts context .nothing declaration.parts hvalue).1,
    declaration.inFront_eq]

theorem tokens_cons (rest : List Token) :
    ∃ token more, declaration.tokens ++ rest = token :: more :=
  List.exists_cons_of_ne_nil (by simp [tokens])

-- Without a comma outside of groups, the value ends where it should.
theorem memberDeclaration_plain (h : declaration.value.hasComma = false) (rest : List Token) :
    memberDeclaration context ending .nothing (declaration.tokens ++ rest) =
      ⟨[context.field declaration.inFront declaration.name declaration.semicolon], none, rest⟩ := by
  have hend : memberDeclaration context ending declaration.inFront (declaration.semicolon :: rest) =
      ⟨[context.field declaration.inFront declaration.name declaration.semicolon], none, rest⟩ := by
    rw [memberDeclaration_cons, declaration.semicolon_kind]
    rfl
  rw [memberDeclaration_value, ← hend]
  cases hvalue : declaration.value with
  | assigned equals parts hequals =>
      rw [hvalue] at h
      have hsemicolon : kindAt (declaration.semicolon :: rest) ∈ [.comma, .semicolon] := by
        simp [declaration.semicolon_kind]
      rw [InitialValue.tokens, List.cons_append, memberDeclaration_cons, hequals]
      dsimp only
      rw [skipInitializer_value (ValuePart.value_parts h) hsemicolon, MembersRead.after_done]
  | braced group hgroup =>
      obtain ⟨opening, inner, htokens, hkind, _, hskip⟩ :=
        @WholeGroup.skip ending _ _ hgroup (declaration.semicolon :: rest)
      rw [InitialValue.tokens, htokens, memberDeclaration_cons, hkind, hskip]
      rfl

-- Behind the first comma outside of groups, reading goes on as with another declarator.
theorem memberDeclaration_comma (h : declaration.value.hasComma = true) (rest : List Token) :
    ∃ comma behind, memberDeclaration context ending .nothing (declaration.tokens ++ rest) =
      (memberDeclaration context ending { declaration.inFront with name := none, attributes := [] }
        behind).cons (context.field declaration.inFront declaration.name comma) := by
  rw [memberDeclaration_value]
  cases hvalue : declaration.value with
  | assigned equals parts hequals =>
      rw [hvalue] at h
      obtain ⟨front, comma, behind, htokens, hfront, hcomma⟩ := ValuePart.exists_comma h
      refine ⟨comma, behind ++ (declaration.semicolon :: rest), ?_⟩
      have hkind : kindAt (comma :: (behind ++ (declaration.semicolon :: rest))) ∈
          [.comma, .semicolon] := by simp [hcomma]
      rw [InitialValue.tokens, List.cons_append, memberDeclaration_cons, hequals]
      dsimp only
      rw [htokens, List.append_assoc, List.cons_append, skipInitializer_value hfront hkind,
        MembersRead.after_done, memberDeclaration_cons, hcomma]
      rfl
  | braced group hgroup =>
      rw [hvalue] at h
      cases h

end InitializedMember

-- A data member with an initial value declares its field and nothing else, wherever it stands,
-- exactly if no comma stands in the value outside of groups.
theorem initialized_declares_iff (declaration : InitializedMember) {className : Option String}
    {access : Access} {annotations : List AnnotationBlock} {front rest : List Token}
    (hlead : leadingAnnotations ending front = .done annotations (declaration.tokens ++ rest))
    (hform : memberForm (declaration.tokens ++ rest) = .plain) :
    ((memberStep .tolerant ending className access front).Declares access
        (commented (trailingDoc rest).1 [declaration.field access annotations])
        (trailingDoc rest).2 ↔
      declaration.value.hasComma = false) ∧
    (declaration.value.hasComma = false →
      ∃ found, unplacedMembers found =
          unplacedMembers (commented (trailingDoc rest).1 [declaration.field access annotations]) ∧
        Recorded.Extends found []
          (classBody .tolerant ending className access (trailingDoc rest).2)
          (classBody .tolerant ending className access front)) := by
  have hdeclares (h : declaration.value.hasComma = false) :
      (member .tolerant ending className access annotations (declaration.tokens ++ rest)).Declares
        access (commented (trailingDoc rest).1 [declaration.field access annotations])
          (trailingDoc rest).2 := by
    exact member_declares hform fun start =>
      ⟨_, declaration.memberDeclaration_plain _ h rest, rfl⟩
  rw [memberStep_declares_iff hlead]
  refine ⟨⟨fun h => ?_, hdeclares⟩, fun h => ?_⟩
  · by_contra hcomma
    obtain ⟨token, more, htokens⟩ := declaration.tokens_cons rest
    rw [htokens] at h hform
    obtain ⟨herror, hfound, _⟩ := (member_declares_iff hform).mp h
    obtain ⟨comma, behind, hread⟩ := @declaration.memberDeclaration_comma ending
      ⟨token.span, annotations, access, className⟩ (by simpa using hcomma) rest
    rw [← htokens, hread] at herror hfound
    have hmore := memberDeclaration_ne_nil declaration.typed herror
    have hlength := congrArg List.length hfound
    rw [length_unplaced_commented, length_unplaced_commented] at hlength
    exact hmore (List.eq_nil_of_length_eq_zero (by simpa [MembersRead.cons] using hlength))
  · refine classBody_declares hlead hform (hdeclares h) ?_
    have hshorter := (trailingDoc_suffix rest).length_le
    obtain ⟨token, more, htokens⟩ := declaration.tokens_cons []
    rw [List.append_nil] at htokens
    rw [List.length_append, htokens, List.length_cons]
    omega

section Sample

open ClassHeader (tokenAt)

-- `map<int, int> m = f(1, 20);`
def initializedSample : InitializedMember where
  parts := [.type (.name (tokenAt .ident 0 "" "map") rfl),
    .type (.arguments (tokenAt .lt 3 "" "<") [tokenAt .ident 4 "" "int", tokenAt .comma 7 "" ",",
      tokenAt .ident 9 " " "int"] (tokenAt .gt 12 "" ">") rfl
        (.token (by decide) rfl rfl (.token (by decide) rfl rfl (.token (by decide) rfl rfl .nil)))
          rfl),
    .type (.name (tokenAt .ident 14 " " "m") rfl)]
  name := tokenAt .ident 14 " " "m"
  value := .assigned (tokenAt .eq 16 " " "=")
    [.token (tokenAt .ident 18 " " "f") (by decide) rfl rfl,
      .group .lParen [tokenAt .lParen 19 "" "(", tokenAt .number 20 "" "1",
        tokenAt .comma 21 "" ",", tokenAt .number 23 " " "20", tokenAt .rParen 25 "" ")"]
        (@WholeGroup.delimiters (tokenAt .lParen 19 "" "(") (tokenAt .rParen 25 "" ")")
          [tokenAt .number 20 "" "1", tokenAt .comma 21 "" ",", tokenAt .number 23 " " "20"]
          ⟨rfl, nofun, rfl⟩ (.token rfl rfl (.token rfl rfl (.token rfl rfl .nil))))] rfl
  semicolon := tokenAt .semicolon 26 "" ";"
  named := rfl
  typed := by decide
  semicolon_kind := rfl

theorem initialized_declares_sample :
    (scan "map<int, int> m = f(1, 20);".toList).items = initializedSample.tokens ∧
      (memberStep .tolerant ⟨.eof, 27, [], []⟩ none .publicAccess
        (initializedSample.tokens ++ [])).Declares .publicAccess
          [initializedSample.field .publicAccess []] [] := by
  have hlead : leadingAnnotations ⟨.eof, 27, [], []⟩ (initializedSample.tokens ++ []) =
      .done [] (initializedSample.tokens ++ []) := leadingAnnotations_plain (by decide) _
  have hform : memberForm (initializedSample.tokens ++ []) = .plain := rfl
  exact ⟨by decide +kernel, (initialized_declares_iff initializedSample hlead hform).1.mpr rfl⟩

-- The second template argument is taken for the name of a function.
theorem initialized_spurious :
    parsedBriefly "struct S \x7b std::map<int, int> m = std::map<int, int>(); \x7d;" =
      some ([("m", .publicAccess, []), ("int", .publicAccess, [])], []) := by
  decide +kernel

end Sample

end Reflection.Header
