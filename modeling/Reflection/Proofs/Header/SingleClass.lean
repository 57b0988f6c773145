import Reflection.Proofs.Header.Readers
import Reflection.Proofs.Header.Steps

namespace Reflection.Header

variable {mode : ErrorMode} {ending keyword semicolon : Token} {front body after : List Token}
  {opening : ClassOpening} {members : List Member}

-- The members of a class, read up to and with the brace that closes it.
abbrev bodyOf (mode : ErrorMode) (ending keyword : Token) (opening : ClassOpening)
    (body : List Token) : Recorded (List Member) body.length :=
  classBody mode ending opening.name.getLast? (classKey keyword).defaultAccess body

-- A head in front of a body, by its tokens behind the keyword.
structure OpensClass (ending keyword : Token) (front : List Token) (opening : ClassOpening)
    (body : List Token) : Prop where
  key : isClassKey keyword.kind = true
  starts : startsTypeDeclaration (keyword :: front) = true
  reads : classOpening ending front = .done opening body
  hasBody : opening.hasBody = true

-- A class by its name and the brace behind it.
theorem opensClass_named {name brace : Token} {blocks : List AnnotationBlock}
    (hkey : isClassKey keyword.kind = true) (hname : name.kind = .ident)
    (hfinal : isFinal name = false) (hbrace : brace.kind = .lBrace)
    (hpast : pastSpecifiers front = some (name :: brace :: body))
    (hblocks : specifiers ending front = .done blocks (name :: brace :: body)) :
    OpensClass ending keyword front ⟨blocks, [name.word], true⟩ body where
  key := hkey
  hasBody := rfl
  starts := by
    have htype : pastTypeKey (keyword :: front) = front := by
      rw [pastTypeKey, if_neg]
      intro henum
      rw [henum.1] at hkey
      cases hkey
    have hnamed : (name :: brace :: body).dropWhile isNamePart = brace :: body := by
      simp [isNamePart, hname, hbrace]
    rw [startsTypeDeclaration, htype, hpast]
    simp [hnamed, hbrace]
  reads := by
    have hparts : className (name :: brace :: body) = ([name.word], brace :: body) := by
      have hmore : moreNames (brace :: body) = ([], brace :: body) := by
        cases body with
        | nil => rfl
        | cons token body => rw [moreNames, if_neg (by simp [hbrace])]
      simp [className, qualifiedName, hfinal, hname, hmore]
    have hskip : skipFinal (brace :: body) = brace :: body := by simp [skipFinal, isFinal, hbrace]
    have harguments : skipTemplateArguments ending (brace :: body) = .done () (brace :: body) := by
      rw [skipTemplateArguments, if_neg (by simp [hbrace])]
    have hbody : enterBody ending (brace :: body) = .done () body := by
      simp [enterBody, expect, hbrace]
    rw [classOpening, hblocks, Read.bind_done, hparts]
    dsimp only
    rw [harguments, Read.bind_done, hskip, hbody, kindAt_cons, hbrace, if_neg (by decide)]
    rfl

namespace OpensClass

variable (h : OpensClass ending keyword front opening body)

include h

theorem scopeItem_eq :
    (scopeItem mode ending (keyword :: front)).outcome =
        ((bodyOf mode ending keyword opening body).andThen
          (opening.finish ending [] false keyword)
          (opening.finish_length ending [] false keyword)).outcome.map (fun read => [read.1]) ∧
      (scopeItem mode ending (keyword :: front)).recovered =
        ((bodyOf mode ending keyword opening body).andThen
          (opening.finish ending [] false keyword)
          (opening.finish_length ending [] false keyword)).recovered ∧
      (scopeItem mode ending (keyword :: front)).rest =
        ((bodyOf mode ending keyword opening body).andThen
          (opening.finish ending [] false keyword)
          (opening.finish_length ending [] false keyword)).rest := by
  have hplain : keyword.kind ∉ [.docComment, .attrOpen] := by
    have hkey := h.key
    cases hkind : keyword.kind <;> simp_all [isClassKey]
  have hform : scopeForm (keyword :: front) = .classType := by
    have hkey := h.key
    rw [scopeForm, kindAt_cons]
    cases hkind : keyword.kind <;> simp_all [isClassKey, h.starts]
  rw [scopeItem_eq_after, Recorded.after_done (leadingAnnotations_plain hplain front),
    scopeDeclaration_cons, hform]
  dsimp only
  rw [classDeclaration_eq_after, Recorded.after_done h.reads]
  simp only [classFrom, h.hasBody, if_true]
  exact ⟨rfl, rfl, rfl⟩

theorem keyword_ne_rBrace : keyword.kind ≠ .rBrace := by
  have hkey := h.key
  intro hkind
  rw [hkind] at hkey
  cases hkey

-- If the members can be read up to a `;`, the scope goes on behind it.
theorem scope_extends (nested : Bool) (hsemicolon : semicolon.kind = .semicolon)
    (hmembers : (bodyOf mode ending keyword opening body).outcome = .ok members)
    (hrest : (bodyOf mode ending keyword opening body).rest = semicolon :: after) :
    Recorded.Extends
      [.classDecl (opening.head ending [] false keyword true (semicolon :: after)) members]
      (bodyOf mode ending keyword opening body).recovered
      (scope mode ending nested after) (scope mode ending nested (keyword :: front)) := by
  have hfinish : opening.finish ending [] false keyword members
      (bodyOf mode ending keyword opening body).rest =
        .done (.classDecl (opening.head ending [] false keyword true (semicolon :: after)) members,
          []) after := by
    rw [hrest, ClassOpening.finish, classEnd, typeDeclarators_cons, hsemicolon]
    rfl
  obtain ⟨hvalue, hreports, hleft⟩ := Recorded.andThen_done hmembers hfinish
    (opening.finish_length ending [] false keyword)
  obtain ⟨hout, hrecovered, hbehind⟩ := @scopeItem_eq mode ending keyword front body opening h
  rw [hvalue] at hout
  rw [hreports] at hrecovered
  rw [hleft] at hbehind
  have hextends := @Reflection.Header.scope_extends mode ending keyword nested front
    h.keyword_ne_rBrace (.inr ⟨_, hout⟩)
  have hnext : (scopeItem mode ending (keyword :: front)).next = after := by
    rw [Recorded.next, hout, hbehind]
    rfl
  have hresume : resume (keyword :: front) after = after := by
    have hlength : after.length < (keyword :: front).length := by
      have hbody := classOpening_length h.reads
      have hbound := (bodyOf mode ending keyword opening body).rest_le
      rw [hrest, List.length_cons] at hbound
      rw [List.length_cons]
      omega
    rw [resume, if_pos hlength]
  rw [hnext, hresume, Recorded.found, Recorded.errors, hout, hrecovered] at hextends
  exact hextends

-- If the body of the class does not end, that is reported.
theorem scope_reports {error : ParseError}
    (hmembers : (bodyOf .tolerant ending keyword opening body).outcome = .error error) :
    (scope .tolerant ending false (keyword :: front)).recovered ≠ [] := by
  obtain ⟨hout, _, _⟩ := @scopeItem_eq .tolerant ending keyword front body opening h
  have hextends := @Reflection.Header.scope_extends .tolerant ending keyword false front
    h.keyword_ne_rBrace (.inl rfl)
  rw [hextends.recovered, Recorded.errors, hout, Recorded.andThen, hmembers]
  simp [Except.map]

end OpensClass

end Reflection.Header
