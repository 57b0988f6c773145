import Reflection.Proofs.Header.EveryClass
import Reflection.Proofs.Outcomes

namespace Reflection.Header

variable {mode : ErrorMode} {ending : Token} {className : Option String} {access : Access}
  {tokens : List Token}

section Labels

structure Label where
  access : Access
  -- whether the colon is there
  isComplete : Bool

def labelAt (tokens : List Token) : Option Label :=
  if memberForm tokens = .label then some ⟨accessOf (kindAt tokens), kindAt tokens.tail = .colon⟩
  else none

-- The label that a declaration is, behind the annotations in front of it.
def labelOf (ending : Token) (tokens : List Token) : Option Label :=
  match leadingAnnotations ending tokens with
  | .failed _ _ => none
  | .done _ rest => labelAt rest

theorem labelOf_done {annotations : List AnnotationBlock} {rest : List Token}
    (h : leadingAnnotations ending tokens = .done annotations rest) :
    labelOf ending tokens = labelAt rest := by rw [labelOf, h]

theorem labelOf_failed {error : ParseError} {rest : List Token}
    (h : leadingAnnotations ending tokens = .failed error rest) : labelOf ending tokens = none := by
  rw [labelOf, h]

-- The access that the last of some labels names.
def lastAccess (access : Access) (labels : List Label) : Access :=
  (labels.getLast?.map Label.access).getD access

theorem lastAccess_append (access : Access) (first second : List Label) :
    lastAccess access (first ++ second) = lastAccess (lastAccess access first) second := by
  unfold lastAccess
  rw [List.getLast?_append]
  cases second.getLast? <;> rfl

-- The complete labels alone say the same, unless the last label is not complete and names another
-- access.
theorem lastAccess_eq_iff (access : Access) (labels : List Label) :
    lastAccess access labels = lastAccess access (labels.filter Label.isComplete) ↔
      ∀ label ∈ labels.getLast?, label.isComplete = true ∨
        label.access = lastAccess access (labels.filter Label.isComplete) := by
  cases hlast : labels.getLast? with
  | none =>
      rw [List.getLast?_eq_none_iff] at hlast
      subst hlast
      simp
  | some label =>
      obtain ⟨front, rfl⟩ : ∃ front, labels = front ++ [label] :=
        ⟨labels.dropLast, (List.dropLast_append_getLast? label hlast).symm⟩
      cases hcomplete : label.isComplete <;> simp [lastAccess, hcomplete]

end Labels

section Steps

theorem MemberStep.ofRecorded_access {bound : Nat} (read : Recorded (List Member) bound) :
    (MemberStep.ofRecorded access read).access = access := by
  unfold ofRecorded
  split <;> rfl

theorem member_access (annotations : List AnnotationBlock) :
    (member mode ending className access annotations tokens).access =
      lastAccess access (labelAt tokens).toList := by
  cases tokens with
  | nil =>
      rw [member]
      rfl
  | cons token rest =>
      rw [member_cons, labelAt]
      cases memberForm (token :: rest) with
      | classType | enumType | template => exact MemberStep.ofRecorded_access _
      | _ => rfl

-- The access in force behind a declaration, whether it has been rejected or not.
theorem memberStep_access :
    (memberStep mode ending className access tokens).access =
      lastAccess access (labelOf ending tokens).toList := by
  rw [memberStep]
  split
  · next hlead =>
    rw [labelOf_failed hlead]
    rfl
  · next annotations rest hlead =>
    rw [labelOf_done hlead]
    change (member mode ending className access annotations rest).access = _
    exact member_access annotations

theorem MemberStep.ofSkip_error {bound : Nat} {read : Read Unit} (h : read.rest.length ≤ bound) :
    (MemberStep.ofSkip access read h).error = none ↔ ∃ rest, read = .done () rest := by
  cases read <;> simp [ofSkip]

theorem expect_done_iff {kind : TokenKind} :
    (∃ rest, expect ending kind tokens = .done () rest) ↔ kindAt tokens = kind := by
  by_cases hkind : kindAt tokens = kind <;> simp [expect, hkind]

theorem member_error_of_label {annotations : List AnnotationBlock} {label : Label}
    (h : labelAt tokens = some label) :
    (member mode ending className access annotations tokens).error = none ↔
      label.isComplete = true := by
  unfold labelAt at h
  split at h
  · next hform =>
    cases h
    cases tokens with
    | nil => cases hform
    | cons token rest =>
        rw [member_cons, hform]
        exact (MemberStep.ofSkip_error _).trans (expect_done_iff.trans decide_eq_true_iff.symm)
  · cases h

-- A label is rejected if and only if it is not complete.
theorem memberStep_error_of_label {label : Label} (h : labelOf ending tokens = some label) :
    (memberStep mode ending className access tokens).error = none ↔ label.isComplete = true := by
  rw [memberStep]
  split
  · next hlead =>
    rw [labelOf_failed hlead] at h
    cases h
  · next annotations rest hlead =>
    rw [labelOf_done hlead] at h
    change (member mode ending className access annotations rest).error = none ↔ _
    exact member_error_of_label h

end Steps

section Bodies

namespace BodyPass

-- The labels among some declarations of a body.
def labels (ending : Token) (passes : List BodyPass) : List Label :=
  passes.filterMap fun pass => labelOf ending pass.tokens

def completeLabels (ending : Token) (passes : List BodyPass) : List Label :=
  (labels ending passes).filter Label.isComplete

theorem labels_cons (ending : Token) (pass : BodyPass) (passes : List BodyPass) :
    labels ending (pass :: passes) =
      (labelOf ending pass.tokens).toList ++ labels ending passes := by
  unfold labels
  rw [List.filterMap_cons]
  cases labelOf ending pass.tokens <;> rfl

end BodyPass

-- By induction on the declarations in front: the last label among them is in force.
theorem access_of_passes {before after : List BodyPass} {pass : BodyPass}
    (h : bodyPasses mode ending className access tokens = before ++ pass :: after) :
    pass.access = lastAccess access (BodyPass.labels ending before) := by
  induction before generalizing access tokens with
  | nil =>
      obtain ⟨token, rest, rfl, hbrace⟩ := bodyPasses_cons h
      rw [bodyPasses, if_neg hbrace] at h
      exact (congrArg BodyPass.access (List.cons.inj h).1).symm
  | cons first before ih =>
      obtain ⟨token, rest, rfl, hbrace⟩ := bodyPasses_cons h
      rw [bodyPasses, if_neg hbrace] at h
      obtain ⟨rfl, hothers⟩ := List.cons.inj h
      rw [ih hothers, memberStep_access, BodyPass.labels_cons, lastAccess_append]

-- How the access of the members of a body follows from the labels in it.
structure AccessByLabels (mode : ErrorMode) (ending : Token) (className : Option String)
    (access : Access) (body : List Token) (members : List Member) : Prop where
  members_eq : members = (bodyPasses mode ending className access body).flatMap
    (BodyPass.members mode ending className)
  rejected : ∀ pass ∈ bodyPasses mode ending className access body,
    ∀ label ∈ labelOf ending pass.tokens,
      (memberStep mode ending className pass.access pass.tokens).error = none ↔
        label.isComplete = true
  last_label : ∀ before pass after,
    bodyPasses mode ending className access body = before ++ pass :: after →
      ∀ member ∈ pass.members mode ending className, ∀ recorded ∈ recordedAccess member,
        recorded = lastAccess access (BodyPass.labels ending before)
  -- the last complete label is the one that counts unless an incomplete one comes behind it
  last_complete_label : ∀ before pass after,
    bodyPasses mode ending className access body = before ++ pass :: after →
      ∀ member ∈ pass.members mode ending className, ∀ recorded ∈ recordedAccess member,
        (recorded = lastAccess access (BodyPass.completeLabels ending before) ↔
          ∀ label ∈ (BodyPass.labels ending before).getLast?, label.isComplete = true ∨
            label.access = lastAccess access (BodyPass.completeLabels ending before))

theorem classBody_access {members : List Member}
    (h : (classBody mode ending className access tokens).outcome = .ok members) :
    AccessByLabels mode ending className access tokens members := by
  have hlast (before : List BodyPass) (pass : BodyPass) (after : List BodyPass)
      (hpasses : bodyPasses mode ending className access tokens = before ++ pass :: after) :
      ∀ member ∈ pass.members mode ending className, ∀ recorded ∈ recordedAccess member,
        recorded = lastAccess access (BodyPass.labels ending before) :=
    fun member hmem recorded hrecorded =>
      (memberStep_members_access member hmem recorded hrecorded).trans (access_of_passes hpasses)
  refine ⟨classBody_passes h, fun _ _ _ hlabel => memberStep_error_of_label hlabel, hlast, ?_⟩
  intro before pass after hpasses member hmem recorded hrecorded
  rw [hlast before pass after hpasses member hmem recorded hrecorded]
  exact lastAccess_eq_iff access (BodyPass.labels ending before)

end Bodies

section Headers

-- The members of a class of this text have the access that the labels of its own body give, with
-- the default of its key in front of the first one.
def ClassByLabels (mode : ErrorMode) (text : List Char) (head : ClassHead)
    (members : List Member) : Prop :=
  ∃ keyword rest opening body, keyword :: rest <:+ (scan text).items ∧
    classKey keyword = head.key ∧ classOpening (scan text).ending rest = .done opening body ∧
    AccessByLabels mode (scan text).ending opening.name.getLast? head.key.defaultAccess body members

-- At every depth of a header. A rejected declaration changes the access behind it if and only if it
-- is a label without its colon that names another access.
theorem class_access_by_labels {text : List Char} {parsed : Parsed}
    (hparse : parse mode text = .ok parsed) {entity : Entity}
    (hentity : entity ∈ parsed.tree.entities) {head : ClassHead} {members : List Member}
    (hclass : entity.HasClass head members) (hdefinition : head.isDefinition = true) :
    ClassByLabels mode text head members := by
  obtain ⟨annotations, isTemplate, keyword, rest, names, hplace, hread⟩ :=
    parse_classRead hparse hentity hclass
  obtain ⟨opening, body, hkey, hopening, hbody⟩ :=
    classDeclaration_body annotations isTemplate keyword _ hread head members rfl hdefinition
  exact ⟨keyword, rest, opening, body, hplace, hkey, hopening, classBody_access hbody⟩

-- The class that a header begins with.
def firstClass (mode : ErrorMode) (text : List Char) : Option (ClassHead × List Member) :=
  (parse mode text).toOption.bind fun parsed => parsed.tree.entities.head?.bind Entity.ownClass

theorem exists_of_firstClass {text : List Char} {head : ClassHead} {members : List Member}
    (h : firstClass mode text = some (head, members)) :
    ∃ parsed entity, parse mode text = .ok parsed ∧ entity ∈ parsed.tree.entities ∧
      entity.HasClass head members := by
  obtain ⟨parsed, hparsed, hfirst⟩ := Option.bind_eq_some_iff.mp h
  obtain ⟨entity, hentity, hclass⟩ := Option.bind_eq_some_iff.mp hfirst
  exact ⟨parsed, entity, eq_ok_of_toOption hparsed, List.mem_of_head? hentity,
    Entity.hasClass_of_ownClass hclass⟩

def labelledSample : List Char :=
  "class C \x7b int x; protected: struct D \x7b int y; \x7d; private int z; int w; \x7d;".toList

theorem class_access_by_labels_sample :
    ∃ parsed entity head members, parse .tolerant labelledSample = .ok parsed ∧
      entity ∈ parsed.tree.entities ∧ entity.HasClass head members ∧ head.isDefinition = true ∧
      ClassByLabels .tolerant labelledSample head members := by
  have hsample : (firstClass .tolerant labelledSample).any (·.1.isDefinition) = true := by
    decide +kernel
  obtain ⟨⟨head, members⟩, hfirst, hdefinition⟩ := (Option.any_eq_true _ _).mp hsample
  obtain ⟨parsed, entity, hparse, hentity, hclass⟩ := exists_of_firstClass hfirst
  exact ⟨parsed, entity, head, members, hparse, hentity, hclass, hdefinition,
    class_access_by_labels hparse hentity hclass hdefinition⟩

-- The access that a rejected label names stays in force.
theorem class_access_after_rejected :
    parsedBriefly "class C \x7b public int x; int y; \x7d;" =
      some ([("y", .publicAccess, [])],
        ["unexpected token: expected ':', found identifier"]) := by decide +kernel

end Headers

end Reflection.Header
