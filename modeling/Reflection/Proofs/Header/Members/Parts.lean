import Reflection.Proofs.Header.Members.Declares
import Reflection.Proofs.Header.TypeHeads

namespace Reflection.Header

variable {ending : Token} (context : MemberContext) (seen : Seen)

-- Words that mean nothing to the reading of a member.
def wordKinds : List TokenKind :=
  [.classKw, .structKw, .unionKw, .enumKw, .inlineKw, .externKw, .templateKw, .ellipsis]

-- A declarator `(*name)(parameters)`.
structure FunctionPointer where
  opening : Token
  marks : List Token
  name : Token
  closing : Token
  parameters : List Token
  opening_kind : opening.kind = .lParen
  marks_ne : marks ≠ []
  mark_kinds : ∀ mark ∈ marks, mark.kind ∈ [.star, .amp]
  name_kind : name.kind = .ident
  closing_kind : closing.kind = .rParen
  isParameters : WholeGroup .lParen parameters

namespace FunctionPointer

variable (pointer : FunctionPointer)

def tokens : List Token :=
  pointer.opening :: (pointer.marks ++ pointer.name :: pointer.closing :: pointer.parameters)

theorem pastPointerMarks_marks {marks : List Token} (h : ∀ mark ∈ marks, mark.kind ∈ [.star, .amp])
    {name closing : Token} (hname : name.kind = .ident) (hclosing : closing.kind = .rParen)
    (rest : List Token) :
    pastPointerMarks (marks ++ name :: closing :: rest) = name :: closing :: rest := by
  induction marks with
  | nil => simp [pastPointerMarks, hname, hclosing]
  | cons mark marks ih =>
      have hmark := h mark List.mem_cons_self
      have hread := ih fun other hmem => h other (List.mem_cons_of_mem mark hmem)
      rw [List.cons_append, pastPointerMarks]
      generalize mark.kind = kind at hmark
      fin_cases hmark <;> exact hread

theorem functionPointer_tokens (rest : List Token) :
    functionPointer ending (pointer.marks ++ pointer.name :: pointer.closing ::
      (pointer.parameters ++ rest)) = .done pointer.name rest := by
  obtain ⟨opening, inner, htokens, hkind, _, hskip⟩ :=
    @WholeGroup.skip ending _ _ pointer.isParameters rest
  have hparens : skipParens ending (pointer.parameters ++ rest) = .done () rest := by
    rw [htokens, skipParens, if_pos hkind, hskip]
  have hclosing : expect ending .rParen (pointer.closing :: (pointer.parameters ++ rest)) =
      .done () (pointer.parameters ++ rest) := if_pos pointer.closing_kind
  rw [functionPointer, pastPointerMarks_marks pointer.mark_kinds pointer.name_kind
    pointer.closing_kind]
  dsimp only
  rw [if_pos pointer.name_kind, hclosing, Read.bind_done, hparens]
  rfl

end FunctionPointer

-- A part of a member declaration in front of parameters and initial values.
inductive MemberPart where
  | type (part : TypePart)
  | word (token : Token) (hkind : token.kind ∈ wordKinds)
  | static (keyword : StaticKeyword)
  | specifier (specifier : Specifier)
  | bound (group : List Token) (hgroup : WholeGroup .lBracket group)
  | pointer (pointer : FunctionPointer)

namespace MemberPart

def tokens : MemberPart → List Token
  | type part => part.tokens
  | word token _ => [token]
  | static keyword => [keyword.token]
  | specifier part => part.tokens
  | bound group _ => group
  | pointer declarator => declarator.tokens

-- The name that a part gives, if any.
def name : MemberPart → Option Token
  | type (.name token _) => some token
  | pointer declarator => some declarator.name
  | _ => none

-- Names in parentheses are not counted.
def isName : MemberPart → Bool
  | type part => part.isName
  | _ => false

def isStatic : MemberPart → Bool
  | static _ => true
  | _ => false

def blocks : MemberPart → List AnnotationBlock
  | specifier part => part.blocks
  | _ => []

-- The attributes that reading keeps: none directly behind `alignas`.
def keptBlocks (behindAlignas : Bool) : List MemberPart → List AnnotationBlock
  | [] => []
  | specifier (.attributed attributes) :: parts =>
    if behindAlignas then keptBlocks true parts else attributes.block :: keptBlocks false parts
  | specifier (.aligned ..) :: parts => keptBlocks true parts
  | _ :: parts => keptBlocks false parts

-- Does an attribute stand directly behind `alignas`?
def losesAttribute (behindAlignas : Bool) : List MemberPart → Bool
  | [] => false
  | specifier (.attributed _) :: parts => behindAlignas || losesAttribute behindAlignas parts
  | specifier (.aligned ..) :: parts => losesAttribute true parts
  | _ :: parts => losesAttribute false parts

def lastName (parts : List MemberPart) : Option Token := (parts.filterMap name).getLast?

theorem lastName_cons (part : MemberPart) (parts : List MemberPart) (before : Option Token) :
    (lastName (part :: parts)).or before = (lastName parts).or (part.name.or before) := by
  unfold lastName
  cases hname : part.name with
  | none => rw [List.filterMap_cons_none hname, Option.none_or]
  | some token =>
      rw [List.filterMap_cons_some hname, List.getLast?_cons]
      cases (parts.filterMap name).getLast? <;> rfl

theorem keptBlocks_of_not_loses {parts : List MemberPart} {behindAlignas : Bool}
    (h : losesAttribute behindAlignas parts = false) :
    keptBlocks behindAlignas parts = parts.flatMap blocks := by
  induction parts generalizing behindAlignas with
  | nil => rfl
  | cons part parts ih =>
      rw [List.flatMap_cons]
      cases part with
      | specifier part =>
          cases part with
          | attributed attributes =>
              obtain ⟨rfl, hparts⟩ := Bool.or_eq_false_iff.mp h
              rw [keptBlocks, if_neg Bool.false_ne_true, ih hparts]
              rfl
          | aligned keyword group hkeyword hgroup => exact ih h
      | _ => exact ih h

theorem length_keptBlocks_le (behindAlignas : Bool) (parts : List MemberPart) :
    (keptBlocks behindAlignas parts).length ≤ (parts.flatMap blocks).length := by
  induction parts generalizing behindAlignas with
  | nil => exact Nat.le_refl 0
  | cons part parts ih =>
      rw [List.flatMap_cons, List.length_append]
      cases part with
      | specifier part =>
          cases part with
          | attributed attributes =>
              cases behindAlignas with
              | true => exact Nat.le_add_left_of_le (ih true)
              | false =>
                  rw [keptBlocks, if_neg Bool.false_ne_true, List.length_cons, Nat.add_comm]
                  exact Nat.add_le_add_left (ih false) 1
          | aligned keyword group hkeyword hgroup => exact Nat.le_add_left_of_le (ih true)
      | _ => exact Nat.le_add_left_of_le (ih false)

theorem length_keptBlocks_lt {parts : List MemberPart} {behindAlignas : Bool}
    (h : losesAttribute behindAlignas parts = true) :
    (keptBlocks behindAlignas parts).length < (parts.flatMap blocks).length := by
  induction parts generalizing behindAlignas with
  | nil => cases h
  | cons part parts ih =>
      rw [List.flatMap_cons, List.length_append]
      cases part with
      | specifier part =>
          cases part with
          | attributed attributes =>
              cases behindAlignas with
              | true =>
                  rw [keptBlocks, if_pos rfl]
                  have hle := length_keptBlocks_le true parts
                  change _ < 1 + _
                  omega
              | false =>
                  have hlt := ih h
                  rw [keptBlocks, if_neg Bool.false_ne_true, List.length_cons]
                  change _ < 1 + _
                  omega
          | aligned keyword group hkeyword hgroup => exact Nat.lt_add_left _ (ih h)
      | _ => exact Nat.lt_add_left _ (ih h)

end MemberPart

section Reading

-- What has been seen behind some parts.
def Seen.behindParts (behindAlignas : Bool) (parts : List MemberPart) : Seen :=
  ⟨seen.isStatic || parts.any MemberPart.isStatic, seen.isDestructor,
    (MemberPart.lastName parts).or seen.name, seen.names + parts.countP MemberPart.isName,
    seen.attributes ++ MemberPart.keptBlocks behindAlignas parts⟩

-- What has been seen behind one more part.
def Seen.read (part : MemberPart) : Seen :=
  ⟨seen.isStatic || part.isStatic, seen.isDestructor, part.name.or seen.name,
    seen.names + (if part.isName then 1 else 0), seen.attributes ++ part.blocks⟩

theorem Seen.behindParts_nil (behindAlignas : Bool) : seen.behindParts behindAlignas [] = seen := by
  simp [behindParts, MemberPart.lastName, MemberPart.keptBlocks]

theorem Seen.behindParts_read {part : MemberPart} {parts : List MemberPart} {behindAlignas : Bool}
    (hkept : MemberPart.keptBlocks behindAlignas (part :: parts) =
      part.blocks ++ MemberPart.keptBlocks false parts) :
    (seen.read part).behindParts false parts = seen.behindParts behindAlignas (part :: parts) := by
  rw [behindParts, behindParts, read, hkept, MemberPart.lastName_cons]
  simp only [List.any_cons, List.countP_cons, Bool.or_assoc, List.append_assoc, Nat.add_assoc]
  rw [Nat.add_comm (if part.isName = true then 1 else 0)]

-- A part that adds no attributes of its own.
theorem Seen.behindParts_skip {part : MemberPart} {parts : List MemberPart} {behindAlignas : Bool}
    (hplain : part.isStatic = false ∧ part.name = none ∧ part.isName = false)
    (hkept : MemberPart.keptBlocks behindAlignas (part :: parts) =
      MemberPart.keptBlocks true parts) :
    seen.behindParts true parts = seen.behindParts behindAlignas (part :: parts) := by
  obtain ⟨hstatic, hname, hcount⟩ := hplain
  rw [behindParts, behindParts, hkept, MemberPart.lastName_cons, hname, Option.none_or]
  simp [hstatic, hcount]

theorem specifiers_stop {tokens : List Token} (h : kindAt tokens ∉ [.attrOpen, .alignasKw]) :
    specifiers ending tokens = .done [] tokens := by
  cases tokens with
  | nil => rw [specifiers]
  | cons token rest =>
      simp only [kindAt_cons, List.mem_cons, List.not_mem_nil, or_false, not_or] at h
      rw [specifiers_cons]
      split
      · next hkind => exact absurd hkind h.1
      · next hkind => exact absurd hkind h.2
      · rfl

theorem MembersRead.after_map {α β : Type} (f : α → β) (read : Read α)
    (next : List Token → MembersRead) :
    MembersRead.after (read.map f) (fun _ rest => next rest) =
      MembersRead.after read fun _ rest => next rest := by
  cases read <;> rfl

theorem memberDeclaration_attributes (attributes : AttributeTokens) (rest : List Token) :
    memberDeclaration context ending seen (attributes.tokens ++ rest) =
      memberDeclaration context ending
        { seen with attributes := seen.attributes ++ [attributes.block] } rest := by
  obtain ⟨tokens, htokens, hblock⟩ := @attributes.attributeBlock_tokens ending rest
  rw [htokens, memberDeclaration_cons, attributes.opening_kind]
  dsimp only
  rw [hblock]
  rfl

theorem memberDeclaration_alignas {keyword : Token} {group : List Token}
    (hkeyword : keyword.kind = .alignasKw) (hgroup : WholeGroup .lParen group) (rest : List Token) :
    memberDeclaration context ending seen (keyword :: group ++ rest) =
      .after (specifiers ending rest) fun _ after =>
        memberDeclaration context ending seen after := by
  obtain ⟨opening, inner, htokens, hkind, _, hskip⟩ := @WholeGroup.skip ending _ _ hgroup rest
  rw [List.cons_append, memberDeclaration_cons, hkeyword]
  dsimp only
  rw [htokens, skipParens, if_pos hkind, hskip, Read.bind_done]

theorem memberDeclaration_pointer (pointer : FunctionPointer) (rest : List Token) :
    memberDeclaration context ending seen (pointer.tokens ++ rest) =
      memberDeclaration context ending { seen with name := some pointer.name } rest := by
  have hmark : ∃ mark marks, pointer.marks = mark :: marks :=
    List.exists_cons_of_ne_nil pointer.marks_ne
  obtain ⟨mark, marks, hmarks⟩ := hmark
  have hkind := pointer.mark_kinds mark (by simp [hmarks])
  have hread := @pointer.functionPointer_tokens ending rest
  rw [FunctionPointer.tokens, List.cons_append, List.append_assoc, List.cons_append,
    List.cons_append, memberDeclaration_cons, pointer.opening_kind]
  dsimp only
  rw [if_pos, hread, MembersRead.after_done]
  rw [hmarks, List.cons_append, kindAt_cons]
  simpa using hkind

theorem memberDeclaration_word {token : Token} (h : token.kind ∈ wordKinds) (rest : List Token) :
    memberDeclaration context ending seen (token :: rest) =
      memberDeclaration context ending seen rest := by
  rw [memberDeclaration_cons]
  generalize token.kind = kind at h
  fin_cases h <;> rfl

-- A part that begins no specifiers only adds to what has been seen.
theorem memberDeclaration_read {part : MemberPart} (h : ∀ other, part ≠ .specifier other)
    (rest : List Token) :
    memberDeclaration context ending seen (part.tokens ++ rest) =
      memberDeclaration context ending (seen.read part) rest := by
  cases part with
  | type part =>
      rw [MemberPart.tokens, memberDeclaration_part]
      cases part <;> simp [Seen.read, Seen.pass, MemberPart.isStatic, MemberPart.name,
        MemberPart.isName, TypePart.isName, MemberPart.blocks]
  | word token hkind =>
      rw [MemberPart.tokens, List.singleton_append, memberDeclaration_word context seen hkind]
      simp [Seen.read, MemberPart.isStatic, MemberPart.name, MemberPart.isName, MemberPart.blocks]
  | static keyword =>
      rw [MemberPart.tokens, List.singleton_append, memberDeclaration_cons, keyword.kind]
      simp [Seen.read, MemberPart.isStatic, MemberPart.name, MemberPart.isName, MemberPart.blocks]
  | specifier part => exact absurd rfl (h part)
  | bound group hgroup =>
      obtain ⟨opening, inner, htokens, hkind, _, hskip⟩ := @WholeGroup.skip ending _ _ hgroup rest
      rw [MemberPart.tokens, htokens, memberDeclaration_cons, hkind, hskip]
      simp [Seen.read, MemberPart.isStatic, MemberPart.name, MemberPart.isName, MemberPart.blocks]
  | pointer declarator =>
      rw [MemberPart.tokens, memberDeclaration_pointer]
      simp [Seen.read, MemberPart.isStatic, MemberPart.name, MemberPart.isName, MemberPart.blocks]

theorem MemberPart.kindAt_append {part : MemberPart} (h : ∀ other, part ≠ .specifier other)
    (rest : List Token) : kindAt (part.tokens ++ rest) ∉ [.attrOpen, .alignasKw] := by
  cases part with
  | type part =>
      cases part with
      | name token hkind => simp [MemberPart.tokens, TypePart.tokens, hkind]
      | mark token hkind =>
          rw [MemberPart.tokens, TypePart.tokens, List.singleton_append, kindAt_cons]
          clear h
          generalize token.kind = kind at hkind
          fin_cases hkind <;> decide
      | arguments opening inner closing hopening hinner hclosing =>
          simp [MemberPart.tokens, TypePart.tokens, hopening]
  | word token hkind =>
      rw [MemberPart.tokens, List.singleton_append, kindAt_cons]
      clear h
      generalize token.kind = kind at hkind
      fin_cases hkind <;> decide
  | static keyword => simp [MemberPart.tokens, keyword.kind]
  | specifier part => exact absurd rfl (h part)
  | bound group hgroup =>
      rw [MemberPart.tokens, hgroup.kindAt_append]
      decide
  | pointer declarator => simp [MemberPart.tokens, FunctionPointer.tokens, declarator.opening_kind]

-- Along the parts of a declaration, and along those behind an `alignas` specifier.
theorem memberDeclaration_memberParts (parts : List MemberPart) {rest : List Token}
    (hrest : kindAt rest ∉ [.attrOpen, .alignasKw]) :
    memberDeclaration context ending seen (parts.flatMap MemberPart.tokens ++ rest) =
        memberDeclaration context ending (seen.behindParts false parts) rest ∧
      (MembersRead.after (specifiers ending (parts.flatMap MemberPart.tokens ++ rest))
        fun _ after => memberDeclaration context ending seen after) =
        memberDeclaration context ending (seen.behindParts true parts) rest := by
  induction parts generalizing seen with
  | nil =>
      rw [List.flatMap_nil, List.nil_append, seen.behindParts_nil, seen.behindParts_nil,
        specifiers_stop hrest]
      exact ⟨rfl, rfl⟩
  | cons part parts ih =>
      rw [List.flatMap_cons, List.append_assoc]
      by_cases hpart : ∃ other, part = .specifier other
      · obtain ⟨other, rfl⟩ := hpart
        have hplain : (MemberPart.specifier other).isStatic = false ∧
            (MemberPart.specifier other).name = none ∧
              (MemberPart.specifier other).isName = false := ⟨rfl, rfl, rfl⟩
        rw [MemberPart.tokens, specifiers_specifier, MembersRead.after_map, (ih seen).2]
        cases other with
        | attributed attributes =>
            refine ⟨?_, by rw [seen.behindParts_skip hplain]; rfl⟩
            rw [Specifier.tokens, memberDeclaration_attributes, (ih _).1,
              ← seen.behindParts_read rfl]
            simp [Seen.read, hplain, MemberPart.blocks, Specifier.blocks]
        | aligned keyword group hkeyword hgroup =>
            refine ⟨?_, by rw [seen.behindParts_skip hplain]; rfl⟩
            rw [Specifier.tokens, memberDeclaration_alignas context seen hkeyword hgroup,
              (ih seen).2, seen.behindParts_skip hplain]
            rfl
      · have hother : ∀ other, part ≠ .specifier other := fun other h => hpart ⟨other, h⟩
        have hkept (behindAlignas : Bool) : MemberPart.keptBlocks behindAlignas (part :: parts) =
            part.blocks ++ MemberPart.keptBlocks false parts := by
          cases part with
          | specifier other => exact absurd rfl (hother other)
          | _ => rfl
        rw [specifiers_stop (MemberPart.kindAt_append hother _), MembersRead.after_done,
          memberDeclaration_read context seen hother, (ih _).1, seen.behindParts_read (hkept false),
          ← seen.behindParts_read (hkept true)]
        exact ⟨rfl, by rw [seen.behindParts_read (hkept false)]⟩

end Reading

end Reflection.Header
