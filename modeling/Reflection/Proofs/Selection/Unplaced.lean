import Reflection.Proofs.Header.Unplaced
import Reflection.Proofs.Selection.Reference

namespace Reflection

def TypeDecl.unplaced : TypeDecl → TypeDecl
  | .classType head members => .classType head.unplaced (members.map Member.unplaced)
  | .enumType decl => .enumType decl.unplaced

def Candidate.unplaced (candidate : Candidate) : Candidate :=
  { candidate with decl := candidate.decl.unplaced }

def Finding.unplaced : Finding → Finding
  | .duplicateName name _ _ => .duplicateName name .none .none
  | .malformedMetadata target error _ => .malformedMetadata target error .none
  | .overloadSkipped owner name _ => .overloadSkipped owner name .none

def Description.unplaced (description : Description) : Description :=
  { description with
    span := .none
    findings := description.findings.map Finding.unplaced
    remarks := description.remarks.map Finding.unplaced }

section Candidates

theorem candidatesOf_unplaced_of {entities : List Entity}
    (h : ∀ entity ∈ entities, ∀ scope,
      entity.unplaced.candidates scope = (entity.candidates scope).map Candidate.unplaced)
    (scope : String) :
    candidatesOf scope (entities.map Entity.unplaced) =
      (candidatesOf scope entities).map Candidate.unplaced := by
  rw [candidatesOf_eq_flatMap, candidatesOf_eq_flatMap, List.flatMap_map, List.map_flatMap]
  exact List.flatMap_congr fun entity hentity => h entity hentity scope

theorem Entity.candidates_unplaced (entity : Entity) (scope : String) :
    entity.unplaced.candidates scope = (entity.candidates scope).map Candidate.unplaced := by
  induction entity using Entity.induct generalizing scope with
  | namespaceDecl head entities ih =>
      have hentities := candidatesOf_unplaced_of ih
      rw [Entity.unplaced, unplacedEntities_eq_map, Entity.candidates, Entity.candidates,
        NamespaceHead.unplaced]
      cases head.name with
      | none => exact hentities scope
      | some name => exact hentities (qualify scope name)
  | classDecl head members ih =>
      have hmembers (scope : String) : nestedCandidates scope (members.map Member.unplaced) =
          (nestedCandidates scope members).map Candidate.unplaced := by
        rw [nestedCandidates_eq_flatMap, nestedCandidates_eq_flatMap, List.flatMap_map,
          List.map_flatMap]
        refine List.flatMap_congr fun member hmember => ?_
        cases member with
        | field _ | method _ => rfl
        | type entity => exact ih entity hmember scope
      rw [Entity.unplaced, unplacedMembers_eq_map, Entity.candidates, Entity.candidates]
      cases hname : head.name with
      | none => simp [ClassHead.unplaced, hname]
      | some name =>
          have hunplaced : head.unplaced.name = some name := hname
          rw [hunplaced]
          dsimp only
          rw [apply_ite (List.map Candidate.unplaced), hmembers]
          rfl
  | enumDecl decl =>
      rw [Entity.unplaced, Entity.candidates, Entity.candidates]
      cases hname : decl.name with
      | none => simp [EnumDecl.unplaced, hname]
      | some name =>
          have hunplaced : decl.unplaced.name = some name := hname
          rw [hunplaced]
          dsimp only
          rw [apply_ite (List.map Candidate.unplaced)]
          rfl

theorem candidatesOf_unplaced (scope : String) (entities : List Entity) :
    candidatesOf scope (entities.map Entity.unplaced) =
      (candidatesOf scope entities).map Candidate.unplaced :=
  candidatesOf_unplaced_of (fun entity _ => entity.candidates_unplaced) scope

end Candidates

section Descriptions

variable {options : SelectionOptions}

theorem hasMarker_unplaced (annotations : List AnnotationBlock) :
    hasMarker (annotations.map AnnotationBlock.unplaced) = hasMarker annotations := by
  rw [hasMarker, hasMarker, List.any_map]
  rfl

theorem includes_unplaced (annotations : List AnnotationBlock) (access : Access) :
    options.includes (annotations.map AnnotationBlock.unplaced) access =
      options.includes annotations access := by
  rw [SelectionOptions.includes, SelectionOptions.includes, hasMarker_unplaced]

theorem collect_unplaced (target : String) (annotations : List AnnotationBlock) :
    options.collect target (annotations.map AnnotationBlock.unplaced) =
      (options.collect target annotations).map id (List.map Finding.unplaced) := by
  induction annotations with
  | nil => rfl
  | cons block annotations ih =>
      have hpieces : block.unplaced.pieces = block.pieces := rfl
      rw [List.map_cons, SelectionOptions.collect, SelectionOptions.collect, ih, hpieces]
      cases block.pieces with
      | ok pieces => rfl
      | error error => rfl

theorem describeMember_unplaced (owner name : String) (kind : MemberKind)
    (annotations : List AnnotationBlock) :
    options.describeMember owner name kind (annotations.map AnnotationBlock.unplaced) =
      (options.describeMember owner name kind annotations).map id (List.map Finding.unplaced) := by
  rw [SelectionOptions.describeMember, SelectionOptions.describeMember, collect_unplaced]
  rfl

theorem describeMembers_unplaced (owner : String) (taken : List String) (members : List Member) :
    options.describeMembers owner taken (members.map Member.unplaced) =
      (options.describeMembers owner taken members).map id (List.map Finding.unplaced) := by
  induction members generalizing taken with
  | nil => rfl
  | cons member members ih =>
      cases member with
      | type entity => exact ih taken
      | field decl =>
          have hmember : Member.unplaced (.field decl) = .field decl.unplaced := rfl
          simp only [List.map_cons, hmember, SelectionOptions.describeMembers, FieldDecl.unplaced,
            includes_unplaced, describeMember_unplaced, ih]
          split
          · simp [Prod.map]
          · rfl
      | method decl =>
          have hmember : Member.unplaced (.method decl) = .method decl.unplaced := rfl
          simp only [List.map_cons, hmember, SelectionOptions.describeMembers, MethodDecl.unplaced,
            includes_unplaced, describeMember_unplaced, ih]
          split
          · split
            · rfl
            · simp [Prod.map]
          · rfl

theorem describeEnumerators_unplaced (owner : String) (decls : List EnumeratorDecl) :
    options.describeEnumerators owner (decls.map EnumeratorDecl.unplaced) =
      (options.describeEnumerators owner decls).map id (List.map Finding.unplaced) := by
  have hkept : (decls.map EnumeratorDecl.unplaced).filter
        (fun decl => options.includes decl.annotations .publicAccess) =
      (decls.filter fun decl => options.includes decl.annotations .publicAccess).map
        EnumeratorDecl.unplaced := by
    rw [List.filter_map]
    exact congrArg _ (List.filter_congr fun decl _ => includes_unplaced decl.annotations _)
  have hdescribed (decl : EnumeratorDecl) :
      options.describeMember owner decl.unplaced.name .enumerator decl.unplaced.annotations =
        (options.describeMember owner decl.name .enumerator decl.annotations).map id
          (List.map Finding.unplaced) :=
    describeMember_unplaced owner decl.name .enumerator decl.annotations
  rw [SelectionOptions.describeEnumerators, SelectionOptions.describeEnumerators, hkept]
  simp [hdescribed, Function.comp_def, List.flatMap_map, List.map_flatMap]

theorem describeBody_unplaced (owner : String) (decl : TypeDecl) :
    options.describeBody owner decl.unplaced =
      (options.describeBody owner decl).map id (List.map Finding.unplaced) := by
  cases decl with
  | classType head members =>
      rw [TypeDecl.unplaced, SelectionOptions.describeBody, SelectionOptions.describeBody,
        describeMembers_unplaced]
      rfl
  | enumType decl =>
      rw [TypeDecl.unplaced, SelectionOptions.describeBody, SelectionOptions.describeBody,
        EnumDecl.unplaced, describeEnumerators_unplaced]
      rfl

theorem annotations_unplaced (decl : TypeDecl) :
    decl.unplaced.annotations = decl.annotations.map AnnotationBlock.unplaced := by
  cases decl <;> rfl

theorem span_unplaced (decl : TypeDecl) : decl.unplaced.span = .none := by
  cases decl <;> rfl

theorem Candidate.describe_unplaced (candidate : Candidate) :
    candidate.unplaced.describe options = (candidate.describe options).unplaced := by
  have hdecl : candidate.unplaced.decl = candidate.decl.unplaced := rfl
  have hname : candidate.unplaced.qualifiedName = candidate.qualifiedName := rfl
  unfold Candidate.describe
  simp only [hdecl, hname, annotations_unplaced, span_unplaced, hasMarker_unplaced,
    collect_unplaced, describeBody_unplaced, Prod.map_fst, Prod.map_snd, id_eq]
  split
  · split
    · simp [Description.unplaced]
    · rfl
  · rfl

end Descriptions

section Duplicates

theorem duplicates_unplaced (seen named : List (String × Span)) :
    duplicates (seen.map fun entry => (entry.1, .none)) (named.map fun entry => (entry.1, .none)) =
      (duplicates seen named).map Finding.unplaced := by
  induction named generalizing seen with
  | nil => rfl
  | cons entry named ih =>
      obtain ⟨name, span⟩ := entry
      have hfind : (seen.map fun entry => (entry.1, Span.none)).find? (·.1 == name) =
          (seen.find? (·.1 == name)).map fun entry => (entry.1, .none) := by
        rw [List.find?_map]
        rfl
      rw [List.map_cons, duplicates, duplicates, hfind]
      cases seen.find? (·.1 == name) with
      | none => exact ih ((name, span) :: seen)
      | some first => exact congrArg (_ :: ·) (ih seen)

end Duplicates

def Selected.unplaced (selected : Selected) : Selected :=
  { selected with findings := selected.findings.map Finding.unplaced }

def outcomeUnplaced : Except (List Finding) Selected → Except (List Finding) Selected
  | .ok selected => .ok selected.unplaced
  | .error findings => .error (findings.map Finding.unplaced)

-- What is selected does not depend on the places of the declarations.
theorem select_unplaced (tree : DeclarationTree) (options : SelectionOptions) :
    (DeclarationTree.select ⟨tree.entities.map Entity.unplaced, tree.span⟩ options).outcome =
      outcomeUnplaced (tree.select options).outcome := by
  have hdescribed : ((candidatesOf "" tree.entities).map Candidate.unplaced).map
        (Candidate.describe options) =
      ((candidatesOf "" tree.entities).map (Candidate.describe options)).map
        Description.unplaced := by
    rw [List.map_map, List.map_map]
    exact List.map_congr_left fun candidate _ => candidate.describe_unplaced
  unfold DeclarationTree.select
  dsimp only
  rw [candidatesOf_unplaced, hdescribed]
  generalize (candidatesOf "" tree.entities).map (Candidate.describe options) = described
  have hnamed : ((described.map Description.unplaced).filterMap fun description =>
        description.type.map fun type => (type.qualifiedName, description.span)) =
      (described.filterMap fun description =>
        description.type.map fun type => (type.qualifiedName, description.span)).map
          fun entry => (entry.1, .none) := by
    rw [List.filterMap_map, List.map_filterMap]
    refine List.filterMap_congr fun description _ => ?_
    obtain ⟨type, span, findings, remarks⟩ := description
    cases type <;> rfl
  have htypes : (described.map Description.unplaced).filterMap (·.type) =
      described.filterMap (·.type) := by
    rw [List.filterMap_map]
    rfl
  have hfindings : (described.map Description.unplaced).flatMap (·.findings) =
      (described.flatMap (·.findings)).map Finding.unplaced := by
    rw [List.flatMap_map, List.map_flatMap]
    rfl
  have hhard := duplicates_unplaced [] (described.filterMap fun description =>
        description.type.map fun type => (type.qualifiedName, description.span))
  rw [List.map_nil] at hhard
  rw [hnamed, hhard, List.isEmpty_map, htypes, hfindings]
  split <;> rfl

end Reflection
