import Reflection.Proofs.Header.Readers
import Reflection.Proofs.Header.Steps

namespace Reflection.Header

variable {ending : Token}

theorem trailingDoc_of_kind {token : Token} (h : token.kind ≠ .docComment) (rest : List Token) :
    trailingDoc (token :: rest) = (none, token :: rest) := by
  simp [trailingDoc, isTrailingDoc, h]

-- The tokens of `Type name;`.
structure PlainField where
  type : Token
  name : Token
  semicolon : Token
  type_kind : type.kind = .ident
  name_kind : name.kind = .ident
  semicolon_kind : semicolon.kind = .semicolon

namespace PlainField

variable (field : PlainField)

def before (rest : List Token) : List Token := field.type :: field.name :: field.semicolon :: rest

def decl (access : Access) (annotations : List AnnotationBlock) : FieldDecl :=
  ⟨field.name.word, false, access, annotations,
    (field.type.span.merge field.name.span).merge field.semicolon.span⟩

theorem memberDeclaration_before (context : MemberContext) (hstart : context.start = field.type.span)
    (rest : List Token) :
    memberDeclaration context ending .nothing (field.before rest) =
      ⟨[.field (field.decl context.access context.annotations)], none, rest⟩ := by
  rw [before, memberDeclaration_cons, field.type_kind]
  dsimp only
  rw [memberDeclaration_cons, field.name_kind]
  dsimp only
  rw [memberDeclaration_cons, field.semicolon_kind]
  simp [MemberContext.field, decl, Seen.nothing, hstart]

theorem type_ne_rBrace : field.type.kind ≠ .rBrace := by
  rw [field.type_kind]
  decide

theorem trailingDoc_before (rest : List Token) :
    trailingDoc (field.before rest) = (none, field.before rest) := by
  refine trailingDoc_of_kind ?_ _
  rw [field.type_kind]
  decide

theorem leadingAnnotations_before (rest : List Token) :
    leadingAnnotations ending (field.before rest) = .done [] (field.before rest) :=
  leadingAnnotations_plain (by simp [field.type_kind]) _

-- An attribute block may stand in front of the field.
theorem leadingAnnotations_block {opening : Token} {block : AnnotationBlock}
    {tokens rest : List Token} (hopening : opening.kind = .attrOpen)
    (hblock : attributeBlock ending opening [] tokens = .done block (field.before rest)) :
    leadingAnnotations ending (opening :: tokens) = .done [block] (field.before rest) := by
  rw [leadingAnnotations_cons, hblock, Read.bind_done, field.leadingAnnotations_before]
  simp [isTrailingDoc, isLeadingDoc, hopening, Read.map]

theorem member_before (name : Option String) (access : Access)
    (annotations : List AnnotationBlock) {rest : List Token}
    (hdoc : trailingDoc rest = (none, rest)) :
    let step := member .tolerant ending name access annotations (field.before rest)
    step.members = [.field (field.decl access annotations)] ∧ step.access = access ∧
      step.errors = [] ∧ step.next = rest := by
  have hform : memberForm (field.before rest) = .plain := by
    simp [memberForm, before, field.type_kind]
  have hread : plainMembers ⟨field.type.span, annotations, access, name⟩ ending
      (field.before rest) = ⟨[.field (field.decl access annotations)], none, rest⟩ := by
    rw [plainMembers, field.memberDeclaration_before _ rfl]
    simp only [hdoc]
  rw [before] at hform hread ⊢
  rw [member_cons, hform]
  simp [MemberStep.ofMembers, MemberStep.errors, MemberStep.next, hread]

-- A class body goes on behind a field.
theorem classBody_before (name : Option String) (access : Access) {token : Token}
    {annotations : List AnnotationBlock} {tokens rest : List Token}
    (hopen : token.kind ≠ .rBrace)
    (hlead : leadingAnnotations ending (token :: tokens) = .done annotations (field.before rest))
    (hdoc : trailingDoc rest = (none, rest)) :
    Recorded.Extends [.field (field.decl access annotations)] []
      (classBody .tolerant ending name access rest)
      (classBody .tolerant ending name access (token :: tokens)) := by
  have hlength : rest.length < (token :: tokens).length := by
    have := leadingAnnotations_length hlead
    simp only [before, List.length_cons] at this ⊢
    omega
  have hstep := @memberStep_eq_after ending (token :: tokens) .tolerant name access
  rw [MemberStep.after_done hlead] at hstep
  obtain ⟨hmembers, hbehind, herrors, hnext⟩ : (memberStep .tolerant ending name access
        (token :: tokens)).members = [.field (field.decl access annotations)] ∧
      (memberStep .tolerant ending name access (token :: tokens)).access = access ∧
      (memberStep .tolerant ending name access (token :: tokens)).errors = [] ∧
      (memberStep .tolerant ending name access (token :: tokens)).next = rest := by
    rw [hstep]
    exact field.member_before name access annotations hdoc
  have hextends := classBody_next name access hopen hnext hlength
  rwa [hmembers, hbehind, herrors] at hextends

end PlainField

end Reflection.Header
